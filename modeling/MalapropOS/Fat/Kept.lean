import MalapropOS.Fat.OpenFiles

/-! Entries that stay in the listings. Nothing but the removal of a file takes a slot out of
them, as long as a write does not store a blank name. -/
namespace MalapropOS.Fat
open LinkedChain PartialMachine

/-- Every slot of the listings of `d` is in those of `d'`, with the same entry. -/
def Keeps (fs : Fat16) (d d' : Disk) : Prop :=
  ∀ p, Reach (listed fs) d p → Reach (listed fs) d' p ∧ slotEntry d' p = slotEntry d p

section Live
variable {fs : Fat16} {d : Disk}

theorem live_of_mem (hl : Layout fs) {ss : List Nat} (hss : Dir (listed fs) d ss) :
    ∀ f ∈ entriesOf fs d ss, LiveEntry fs d f := by
  induction hss with
  | root =>
    intro f hf
    rw [← getRootDir_eq] at hf
    exact .root hf
  | @sub ss l p _ hp hs hc ih =>
    intro f hf
    have hparent : LiveEntry fs d ⟨slotEntry d p, p⟩ := ih _ (List.mem_map.mpr ⟨p, hp, rfl⟩)
    exact .child hparent (getDir_eq hl hs hc) hf

theorem Listed.live (hl : Layout fs) {f : ListEntry} (hf : Listed fs d f) : LiveEntry fs d f := by
  obtain ⟨⟨ss, hss, hp⟩, he⟩ := hf
  refine live_of_mem hl hss f (List.mem_map.mpr ⟨f.slot, hp, ?_⟩)
  rw [← he]

theorem Reach.live (hl : Layout fs) {p : Slot} (hp : Reach (listed fs) d p) :
    LiveEntry fs d ⟨slotEntry d p, p⟩ :=
  Listed.live hl ⟨hp, rfl⟩

end Live

section Same
variable {fs : Fat16} {sel : Selection fs} {d d' : Disk} {ss : List Nat} {p : Slot}

theorem SameDirs.dir_kept (h : SameDirs sel d d') (hd : Dir sel d ss) : Dir sel d' ss := by
  induction hd with
  | root => exact .root
  | @sub ss l p hss hp hs hc ih =>
    have he := h.entry_eq hss (sel.subset _ _ hp)
    have hc' := hc.congr (h.links p l ⟨ss, hss, hp⟩ hs hc)
    rw [← h.slots_eq hss] at hp
    rw [← he] at hs hc'
    exact .sub ih hp hs hc'

theorem SameDirs.keeps (h : SameDirs (listed fs) d d') : Keeps fs d d' := by
  intro p ⟨ss, hss, hp⟩
  refine ⟨⟨ss, h.dir_kept hss, ?_⟩, h.entry_eq hss ((listed fs).subset _ _ hp)⟩
  rwa [h.slots_eq hss]

end Same

section Store
variable {fs : Fat16} {d d' : Disk} {p : Slot} {e : DirEntry} {first : UInt8}

/-- A listing still shows a slot that stays in use, if no slot becomes its end. -/
theorem liveSlots_mono {ss : List Nat}
    (h₀ : ∀ q ∈ slotsOf fs ss, firstByte d q ≠ 0x00 → firstByte d' q ≠ 0x00) {q : Slot}
    (hq : q ∈ liveSlots fs d ss) (h₅ : firstByte d' q ≠ 0xe5) : q ∈ liveSlots fs d' ss := by
  rw [liveSlots] at hq ⊢
  refine List.mem_filter.mpr ⟨?_, decide_eq_true h₅⟩
  have hq := (List.mem_filter.mp hq).1
  revert h₀ hq
  induction slotsOf fs ss with
  | nil => exact fun _ hq => hq
  | cons a as ih =>
    intro h₀ hq
    by_cases ha : firstByte d a = 0x00
    · simp [ha] at hq
    · have ha' := h₀ a (by simp) ha
      simp only [ne_eq, ha, ha', not_false_eq_true, decide_true, List.takeWhile_cons_of_pos,
        List.mem_cons] at hq ⊢
      exact hq.imp_right (ih fun x hx => h₀ x (by simp [hx]))

/-- The first byte `first` may go to the slot `p` of a listing: it does not end it, and it does not
delete an entry that is shown. -/
def KeepsListing (fs : Fat16) (d : Disk) (p : Slot) (first : UInt8) (ss : List Nat) : Prop :=
  (firstByte d p ≠ 0x00 → first ≠ 0x00) ∧ (p ∈ liveSlots fs d ss → first ≠ 0xe5)

theorem KeepsListing.of_eq {ss : List Nat} (h : firstByte d p = first) :
    KeepsListing fs d p first ss := by
  refine ⟨fun h₀ => h ▸ h₀, fun hp => ?_⟩
  obtain ⟨-, h₅⟩ := List.mem_filter.mp hp
  rw [← h]
  exact of_decide_eq_true h₅

theorem Dir.liveSlots_kept (hl : DirLayout fs) (hp : IsSlot fs p) {ss : List Nat}
    (hss : Dir (listed fs) d ss) (hb : p ∈ slotsOf fs ss → KeepsListing fs d p first ss) :
    (listed fs).slots d ss ⊆ (listed fs).slots (writeSlot d p e first) ss := by
  have hother : ∀ q ∈ slotsOf fs ss, q ≠ p →
      firstByte (writeSlot d p e first) q = firstByte d q :=
    fun q hq hne => firstByte_writeSlot_other hp (hss.isSlot hl hq) hne
  refine fun q hq => liveSlots_mono (fun q hq h => ?_) hq ?_
  · by_cases hqp : q = p
    · rw [hqp] at hq h ⊢
      rw [firstByte_writeSlot_self]
      exact (hb hq).1 h
    · rwa [hother q hq hqp]
  · have hm := (listed fs).subset d ss hq
    by_cases hqp : q = p
    · rw [hqp] at hq hm ⊢
      rw [firstByte_writeSlot_self]
      exact (hb hm).2 hq
    · rw [hother q hm hqp]
      exact of_decide_eq_true (List.mem_filter.mp hq).2

/-- An entry may be stored in a slot that is free, or in that of a regular file. -/
theorem Dir.kept_writeSlot (hl : DirLayout fs) (hp : IsSlot fs p)
    (hb : ∀ ss, Dir (listed fs) d ss → p ∈ slotsOf fs ss → KeepsListing fs d p first ss)
    (hreg : Reach (listed fs) d p → ¬ isSubdirectory (slotEntry d p).attributes) {ss : List Nat}
    (hd : Dir (listed fs) d ss) : Dir (listed fs) (writeSlot d p e first) ss := by
  induction hd with
  | root => exact .root
  | @sub ss l q hss hq hs hch ih =>
    have hne : q ≠ p := by
      rintro rfl
      exact hreg ⟨ss, hss, hq⟩ hs
    have hch' : FileChain fs (writeSlot d p e first) (slotEntry d q).firstCluster l :=
      (FileChain.writeSlot_iff hl.toLayout hp).mpr hch
    have heq : slotEntry (writeSlot d p e first) q = slotEntry d q :=
      slotEntry_writeSlot_other hp (hss.isSlot hl ((listed fs).subset _ _ hq)) hne
    rw [← heq] at hs hch'
    exact .sub ih (hss.liveSlots_kept hl hp (hb ss hss) hq) hs hch'

theorem Reach.kept_writeSlot (hl : DirLayout fs) (hp : IsSlot fs p)
    (hb : ∀ ss, Dir (listed fs) d ss → p ∈ slotsOf fs ss → KeepsListing fs d p first ss)
    (hreg : Reach (listed fs) d p → ¬ isSubdirectory (slotEntry d p).attributes) {q : Slot}
    (hq : Reach (listed fs) d q) : Reach (listed fs) (writeSlot d p e first) q := by
  obtain ⟨ss, hss, hm⟩ := hq
  exact ⟨ss, hss.kept_writeSlot hl hp hb hreg, hss.liveSlots_kept hl hp (hb ss hss) hm⟩

end Store

section Bytes
variable {fs : Fat16} {d : Disk}

/-- A listing shows slots in use. -/
theorem Reach.used_byte {p : Slot} (h : Reach (listed fs) d p) :
    firstByte d p ≠ 0x00 ∧ firstByte d p ≠ 0xe5 := by
  obtain ⟨ss, -, hp⟩ := h.to_used
  exact (mem_used.mp hp).2

theorem padName_first (s : CharPtr) {n : Nat} (hn : 0 < n) : CharPtr.at (padName s n) 0 ≠ 0 := by
  rw [padName, CharPtr.at]
  cases hc : cstr (s.take n) with
  | nil =>
    obtain ⟨m, rfl⟩ : ∃ m, n = m + 1 := ⟨n - 1, by omega⟩
    simp [List.replicate_succ]
  | cons a as =>
    have ha : a ∈ cstr (s.take n) := by simp [hc]
    simpa using List.mem_takeWhile_imp ha

/-- A new entry is not taken for the end of the directory, nor for a deleted one. -/
theorem newFirstByte_used (fs : Fat16) (d : Disk) (pathname : CharPtr) (attributes : UInt8) :
    newFirstByte (newFile fs d pathname attributes) ≠ 0x00 ∧
      newFirstByte (newFile fs d pathname attributes) ≠ 0xe5 := by
  have h₀ : CharPtr.at (newFile fs d pathname attributes).filename 0 ≠ 0 :=
    padName_first _ (by decide)
  rw [newFirstByte]
  split_ifs with h₅
  · exact ⟨by decide, by decide⟩
  · exact ⟨h₀, h₅⟩

end Bytes

/-- What making a file does: nothing, or an entry in a free slot, whose cluster is marked. -/
inductive Created (fs : Fat16) (d : Disk) (pathname : CharPtr) (attributes : UInt8) :
    Int → Disk → Prop
  | refused : Created fs d pathname attributes (-1) d
  | stored {p : Slot} (slot : newSlot fs d pathname = some (some p)) (isSlot : IsSlot fs p)
      (free : firstByte d p = 0x00 ∨ firstByte d p = 0xe5)
      (enough : 2 ≤ findFirstFreeCluster fs d) (inTable : findFirstFreeCluster fs d < numEntries fs)
      (unused : getSuccessorCluster fs d (findFirstFreeCluster fs d) = 0) :
      Created fs d pathname attributes 0
        (writeSlot (setSuccessorCluster fs d (findFirstFreeCluster fs d) 0xFFFF) p
          (newFile fs d pathname attributes) (newFirstByte (newFile fs d pathname attributes)))

section Create
variable {fs : Fat16} (hl : DirLayout fs) {d d' : Disk}
include hl

theorem Reach.isSlot {sel : Selection fs} {p : Slot} (h : Reach sel d p) : IsSlot fs p := by
  obtain ⟨ss, hss, hp⟩ := h
  exact hss.isSlot hl (sel.subset _ _ hp)

theorem createNewFile_created {held : Nat → Prop} (h : Sound fs d held) {pathname : CharPtr}
    {attributes : UInt8} (hg : CreateGuard fs d pathname attributes) {r : Int}
    (hc : createNewFile fs d pathname attributes = some (r, d')) :
    Created fs d pathname attributes r d' := by
  rw [createNewFile_eq hl h.dirs.to_listed pathname attributes hg.full] at hc
  obtain ⟨o, ho, hp⟩ := newSlot_ends hl h.dirs.to_listed pathname
  rw [ho] at hc
  cases o with
  | none =>
    obtain ⟨rfl, rfl⟩ := Prod.mk.inj (Option.some.inj hc)
    exact .refused
  | some p =>
    obtain ⟨rfl, rfl⟩ := Prod.mk.inj (Option.some.inj hc)
    have h2 := hg.free p ho
    obtain ⟨hlt, hzero, -⟩ := findFirstFreeCluster_spec hl.toLayout d rfl h2
    have hs := (hp p rfl).1
    rw [setSuccessorCluster_writeSlot hl hs hlt]
    exact .stored ho hs (hp p rfl).2 h2 hlt hzero

theorem Created.keeps {pathname : CharPtr} {attributes : UInt8} {r : Int}
    (h : Created fs d pathname attributes r d') : Keeps fs d d' := by
  cases h with
  | refused => exact fun p hp => ⟨hp, rfl⟩
  | @stored p _ hs hfree h2 hlt hzero =>
    have hsame : SameDirs (listed fs) d
        (setSuccessorCluster fs d (findFirstFreeCluster fs d) 0xFFFF) :=
      .of_mark hl hlt hzero (by decide)
    intro q hq
    obtain ⟨hq', he⟩ := hsame.keeps q hq
    have hnot : ¬ Reach (listed fs) (setSuccessorCluster fs d (findFirstFreeCluster fs d) 0xFFFF)
        p := by
      intro hr
      have hb := hr.used_byte
      rw [firstByte_mark hl hs hlt] at hb
      exact hfree.elim hb.1 hb.2
    obtain ⟨h₀, h₅⟩ := newFirstByte_used fs d pathname attributes
    refine ⟨hq'.kept_writeSlot hl hs (fun _ _ _ => ⟨fun _ => h₀, fun _ => h₅⟩)
      fun hr => absurd hr hnot, ?_⟩
    rw [slotEntry_writeSlot_other hs (hq'.isSlot hl) (fun hqp => hnot (hqp ▸ hq')), he]

end Create
end MalapropOS.Fat
