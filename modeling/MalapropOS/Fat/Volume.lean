import MalapropOS.Fat.Metadata

/-! Soundness of a volume: the chains of its entries, and of the files held open, are valid and
apart. The three changes that the system calls are made of keep it: writing to a file that is
held, marking a free cluster, and storing an entry in a slot. -/
namespace MalapropOS.Fat
open LinkedChain

/-- A cluster where a chain starts: that of a slot in use, or of a file held open. -/
def Head (fs : Fat16) (d : Disk) (held : Nat → Prop) (c : Nat) : Prop :=
  held c ∨ ∃ p, Reach (used fs) d p ∧ (slotEntry d p).firstCluster = c

/-- Every chain is valid, two chains share no cluster, and a file held open is not a directory. -/
structure Sound (fs : Fat16) (d : Disk) (held : Nat → Prop) : Prop where
  chain : ∀ c, Head fs d held c → ∃ l, FileChain fs d c l
  apart : ∀ c c' l l', Head fs d held c → Head fs d held c' → c ≠ c' → FileChain fs d c l →
    FileChain fs d c' l' → l.Disjoint l'
  slots : ∀ p q, Reach (used fs) d p → Reach (used fs) d q →
    (slotEntry d p).firstCluster = (slotEntry d q).firstCluster → p = q
  regular : ∀ p, Reach (used fs) d p → held (slotEntry d p).firstCluster →
    ¬ isSubdirectory (slotEntry d p).attributes

section Sound
variable {fs : Fat16} {d : Disk} {held held' : Nat → Prop} {c : Nat} {l : List Nat}

theorem Head.of_reach {p : Slot} (hr : Reach (used fs) d p) :
    Head fs d held (slotEntry d p).firstCluster :=
  Or.inr ⟨p, hr, rfl⟩

theorem Sound.dirs (h : Sound fs d held) : DirsValid (used fs) d :=
  fun _ hr _ => h.chain _ (.of_reach hr)

theorem Sound.mono (h : Sound fs d held) (hs : ∀ c, held' c → held c) : Sound fs d held' := by
  have hh : ∀ c, Head fs d held' c → Head fs d held c := fun c hc => hc.imp_left (hs c)
  exact ⟨fun c hc => h.chain c (hh c hc),
    fun c c' l l' hc hc' => h.apart c c' l l' (hh c hc) (hh c' hc'), h.slots,
    fun p hr hc => h.regular p hr (hs _ hc)⟩

/-- A file of the tree may be opened. -/
theorem Sound.hold (h : Sound fs d held) {p : Slot} (hr : Reach (used fs) d p)
    (hs : ¬ isSubdirectory (slotEntry d p).attributes) :
    Sound fs d fun c => held c ∨ c = (slotEntry d p).firstCluster := by
  have hh : ∀ c, Head fs d (fun c => held c ∨ c = (slotEntry d p).firstCluster) c →
      Head fs d held c := by
    rintro c ((hc | rfl) | hc)
    · exact Or.inl hc
    · exact .of_reach hr
    · exact Or.inr hc
  refine ⟨fun c hc => h.chain c (hh c hc),
    fun c c' l l' hc hc' => h.apart c c' l l' (hh c hc) (hh c' hc'), h.slots, ?_⟩
  rintro q hq (hc | hc)
  · exact h.regular q hq hc
  · rw [h.slots q p hq hr hc]
    exact hs

theorem FileChain.start_mem (h : FileChain fs d c l) : c ∈ l := by
  obtain ⟨e, -, hp⟩ := h.ends
  cases l with
  | nil => exact absurd rfl h.nonempty
  | cons a l =>
    obtain rfl : a = c := hp.1
    exact List.mem_cons_self

theorem Sound.head_not_free (h : Sound fs d held) (hc : Head fs d held c) :
    getSuccessorCluster fs d c ≠ 0 := by
  obtain ⟨l, hl⟩ := h.chain c hc
  exact hl.successor_ne_zero c hl.start_mem

/-- A directory shares no cluster with a file held open. -/
theorem Sound.dir_apart (h : Sound fs d held) (hc : held c) (hch : FileChain fs d c l) :
    ∀ p m, Reach (used fs) d p → isSubdirectory (slotEntry d p).attributes →
      FileChain fs d (slotEntry d p).firstCluster m → m.Disjoint l := by
  intro p m hr hs hm
  refine h.apart _ c m l (.of_reach hr) (Or.inl hc) (fun he => ?_) hm hch
  exact h.regular p hr (he ▸ hc) hs

end Sound

section Write
variable {fs : Fat16} (hl : DirLayout fs) {d d' : Disk} {held : Nat → Prop} {c o n : Nat}
  {l new : List Nat} {buf : Buffer}
include hl

theorem Sound.sameDirs (h : Sound fs d held) (hc : held c) (hch : FileChain fs d c l)
    (hw : Written fs d c l o buf n d' new) : SameDirs (used fs) d d' :=
  .of_written hl hch hw (h.dir_apart hc hch)

/-- The chain of another file is what it was. -/
theorem Sound.other_chain (h : Sound fs d held) (hc : held c) (hch : FileChain fs d c l)
    (hw : Written fs d c l o buf n d' new) {a : Nat} {m : List Nat} (ha : Head fs d held a)
    (hne : a ≠ c) (hm : FileChain fs d a m) : m.Disjoint (l ++ new) ∧ FileChain fs d' a m := by
  have hout : m.Disjoint (l ++ new) := by
    intro b hb hb'
    cases List.mem_append.mp hb' with
    | inl hb' => exact h.apart a c m l ha (Or.inl hc) hne hm hch hb hb'
    | inr hb' => exact hm.successor_ne_zero b hb (hw.new_inTable b hb').2.2
  exact ⟨hout, hm.congr fun b hb => hw.successor_eq hl.toLayout (hm.inTable b hb).2 (hout hb)⟩

theorem Sound.written (h : Sound fs d held) (hc : held c) (hch : FileChain fs d c l)
    (hw : Written fs d c l o buf n d' new) : Sound fs d' held := by
  have hsame := h.sameDirs hl hc hch hw
  have hhead : ∀ a, Head fs d' held a → Head fs d held a := by
    rintro a (ha | ⟨p, hr, rfl⟩)
    · exact Or.inl ha
    · obtain ⟨hr, he⟩ := hsame.reach hl.toLayout h.dirs hr
      exact he ▸ .of_reach hr
  -- the chain of a head afterwards is the grown one, or one apart from it
  have hchain : ∀ a m', Head fs d held a → FileChain fs d' a m' →
      (a = c ∧ m' = l ++ new) ∨ (a ≠ c ∧ m'.Disjoint (l ++ new) ∧ FileChain fs d a m') := by
    intro a m' ha hm'
    by_cases he : a = c
    · subst he
      exact Or.inl ⟨rfl, hm'.unique hl.toLayout (hw.fileChain hch)⟩
    · obtain ⟨m, hm⟩ := h.chain a ha
      obtain ⟨hd, hm₁⟩ := h.other_chain hl hc hch hw ha he hm
      obtain rfl := hm'.unique hl.toLayout hm₁
      exact Or.inr ⟨he, hd, hm⟩
  constructor
  · intro a ha
    by_cases he : a = c
    · exact ⟨l ++ new, he ▸ hw.fileChain hch⟩
    · obtain ⟨m, hm⟩ := h.chain a (hhead a ha)
      exact ⟨m, (h.other_chain hl hc hch hw (hhead a ha) he hm).2⟩
  · intro a b m m' ha hb hne hm hm'
    obtain ⟨rfl, rfl⟩ | ⟨-, hd, hm⟩ := hchain a m (hhead a ha) hm
    · obtain ⟨rfl, -⟩ | ⟨-, hd', -⟩ := hchain b m' (hhead b hb) hm'
      · exact absurd rfl hne
      · exact fun x hx hx' => hd' hx' hx
    · obtain ⟨rfl, rfl⟩ | ⟨-, -, hm'⟩ := hchain b m' (hhead b hb) hm'
      · exact hd
      · exact h.apart a b m m' (hhead a ha) (hhead b hb) hne hm hm'
  · intro p q hp hq he
    obtain ⟨hp, hep⟩ := hsame.reach hl.toLayout h.dirs hp
    obtain ⟨hq, heq⟩ := hsame.reach hl.toLayout h.dirs hq
    exact h.slots p q hp hq (by rwa [hep, heq] at he)
  · intro p hp hc
    obtain ⟨hp, hep⟩ := hsame.reach hl.toLayout h.dirs hp
    rw [hep] at hc ⊢
    exact h.regular p hp hc

end Write

section Mark
variable {fs : Fat16} (hl : DirLayout fs) {d : Disk} {held : Nat → Prop} {c : Nat}
include hl

/-- The chain of a cluster that was marked as the end of a file. -/
theorem fileChain_mark (h2 : 2 ≤ c) (hc : c < numEntries fs) :
    FileChain fs (setSuccessorCluster fs d c 0xFFFF) c [c] := by
  refine ⟨by simp, by simp, by simp [h2, hc], 0xFFFF, by decide, rfl, ?_⟩
  rw [getSuccessorCluster_set d hl.even c c (by decide), if_pos rfl]
  rfl

theorem FileChain.mark (hfree : getSuccessorCluster fs d c = 0) {a : Nat} {m : List Nat}
    (hm : FileChain fs d a m) : c ∉ m ∧ FileChain fs (setSuccessorCluster fs d c 0xFFFF) a m := by
  have hn : c ∉ m := fun hm' => hm.successor_ne_zero c hm' hfree
  refine ⟨hn, hm.congr fun b hb => ?_⟩
  rw [getSuccessorCluster_set d hl.even _ _ (by decide), if_neg]
  rintro rfl
  exact hn hb

/-- The other chains are the chains of before. -/
theorem Sound.chain_mark (h : Sound fs d held) (hfree : getSuccessorCluster fs d c = 0) {a : Nat}
    (ha : Head fs d held a) {m : List Nat}
    (hm : FileChain fs (setSuccessorCluster fs d c 0xFFFF) a m) : c ∉ m ∧ FileChain fs d a m := by
  obtain ⟨m', hm'⟩ := h.chain a ha
  obtain ⟨hn, hk⟩ := hm'.mark hl hfree
  obtain rfl := hm.unique hl.toLayout hk
  exact ⟨hn, hm'⟩

theorem Sound.reach_mark (h : Sound fs d held) (hc : c < numEntries fs)
    (hfree : getSuccessorCluster fs d c = 0) {p : Slot}
    (hr : Reach (used fs) (setSuccessorCluster fs d c 0xFFFF) p) :
    Reach (used fs) d p ∧ slotEntry (setSuccessorCluster fs d c 0xFFFF) p = slotEntry d p :=
  (SameDirs.of_mark hl hc hfree (by decide)).reach hl.toLayout h.dirs hr

theorem Sound.mark (h : Sound fs d held) (h2 : 2 ≤ c) (hc : c < numEntries fs)
    (hfree : getSuccessorCluster fs d c = 0) :
    Sound fs (setSuccessorCluster fs d c 0xFFFF) (fun a => held a ∨ a = c) ∧
      ∀ p, Reach (used fs) (setSuccessorCluster fs d c 0xFFFF) p →
        Reach (used fs) d p ∧ (slotEntry (setSuccessorCluster fs d c 0xFFFF) p).firstCluster ≠ c := by
  have hne : ∀ a, Head fs d held a → a ≠ c := by
    rintro a ha rfl
    exact h.head_not_free ha hfree
  have hhead : ∀ a, Head fs (setSuccessorCluster fs d c 0xFFFF) (fun a => held a ∨ a = c) a →
      Head fs d held a ∨ a = c := by
    rintro a ((ha | rfl) | ⟨p, hr, rfl⟩)
    · exact Or.inl (Or.inl ha)
    · exact Or.inr rfl
    · obtain ⟨hr, he⟩ := h.reach_mark hl hc hfree hr
      exact Or.inl (he ▸ .of_reach hr)
  have hself : ∀ m, FileChain fs (setSuccessorCluster fs d c 0xFFFF) c m → m = [c] :=
    fun m hm => hm.unique hl.toLayout (fileChain_mark hl h2 hc)
  refine ⟨⟨?_, ?_, ?_, ?_⟩, ?_⟩
  · intro a ha
    obtain ha | rfl := hhead a ha
    · obtain ⟨m, hm⟩ := h.chain a ha
      exact ⟨m, (hm.mark hl hfree).2⟩
    · exact ⟨[a], fileChain_mark hl h2 hc⟩
  · intro a b m m' ha hb hab hm hm'
    obtain ha | rfl := hhead a ha
    · obtain ⟨hn, hm⟩ := h.chain_mark hl hfree ha hm
      obtain hb | rfl := hhead b hb
      · exact h.apart a b m m' ha hb hab hm (h.chain_mark hl hfree hb hm').2
      · rw [hself m' hm']
        simpa using hn
    · rw [hself m hm]
      obtain hb | rfl := hhead b hb
      · simpa using (h.chain_mark hl hfree hb hm').1
      · exact absurd rfl hab
  · intro p q hp hq he
    obtain ⟨hp, hep⟩ := h.reach_mark hl hc hfree hp
    obtain ⟨hq, heq⟩ := h.reach_mark hl hc hfree hq
    exact h.slots p q hp hq (by rwa [hep, heq] at he)
  · intro p hp hheld
    obtain ⟨hp, hep⟩ := h.reach_mark hl hc hfree hp
    rw [hep] at hheld ⊢
    exact h.regular p hp (hheld.resolve_right (hne _ (.of_reach hp)))
  · intro p hp
    obtain ⟨hp, hep⟩ := h.reach_mark hl hc hfree hp
    rw [hep]
    exact ⟨hp, hne _ (.of_reach hp)⟩

end Mark

section Store
variable {fs : Fat16} (hl : DirLayout fs) {d : Disk} {held held' : Nat → Prop} {p : Slot}
  {e : DirEntry} {first : UInt8}
include hl

theorem used_writeSlot (hp : IsSlot fs p) {ss : List Nat} (hss : Dir (used fs) d ss) :
    ∀ q ∈ (used fs).slots (writeSlot d p e first) ss, q ∈ (used fs).slots d ss ∨ q = p := by
  intro q hq
  by_cases he : q = p
  · exact Or.inr he
  · obtain ⟨hm, hb⟩ := mem_used.mp hq
    rw [firstByte_writeSlot_other hp (hss.isSlot hl hm) he] at hb
    exact Or.inl (mem_used.mpr ⟨hm, hb⟩)

/-- An entry may be stored in a slot of the tree if its chain is one of those that are there,
and of no other slot, and a directory that it names is empty. -/
theorem Sound.store (h : Sound fs d held) (hp : IsSlot fs p) (hc : e.firstCluster < 2 ^ 16)
    (hheld : ∀ c, held' c → held c)
    (hcond : (∃ ss, Dir (used fs) d ss ∧ p ∈ (used fs).slots (writeSlot d p e first) ss) →
      Head fs d held e.firstCluster ∧
      (∀ q, q ≠ p → Reach (used fs) d q → (slotEntry d q).firstCluster ≠ e.firstCluster) ∧
      (isSubdirectory e.attributes → ¬ held' e.firstCluster ∧ ∀ m,
        FileChain fs d e.firstCluster m →
        ∀ q ∈ (used fs).slots (writeSlot d p e first) (chainSectors fs m), q = p)) :
    Sound fs (writeSlot d p e first) held' := by
  have hreach : ∀ q, Reach (used fs) (writeSlot d p e first) q →
      (q ≠ p ∧ Reach (used fs) d q ∧ slotEntry (writeSlot d p e first) q = slotEntry d q) ∨
        q = p ∧ ∃ ss, Dir (used fs) d ss ∧ p ∈ (used fs).slots (writeSlot d p e first) ss :=
    fun q hr => hr.of_writeSlot hl hp hc (fun ss hss => used_writeSlot hl hp hss)
      fun hin hs => ((hcond hin).2.2 hs).2
  have hfirst : (slotEntry (writeSlot d p e first) p).firstCluster = e.firstCluster :=
    slotEntry_writeSlot_firstCluster hc
  have hhead : ∀ a, Head fs (writeSlot d p e first) held' a → Head fs d held a := by
    rintro a (ha | ⟨q, hr, rfl⟩)
    · exact Or.inl (hheld a ha)
    · obtain ⟨-, hq, he⟩ | ⟨rfl, hin⟩ := hreach q hr
      · exact he ▸ .of_reach hq
      · rw [hfirst]
        exact (hcond hin).1
  have hchain {a : Nat} {m : List Nat} :
      FileChain fs (writeSlot d p e first) a m ↔ FileChain fs d a m :=
    FileChain.writeSlot_iff hl.toLayout hp
  refine ⟨?_, ?_, ?_, ?_⟩
  · intro a ha
    obtain ⟨m, hm⟩ := h.chain a (hhead a ha)
    exact ⟨m, hchain.mpr hm⟩
  · intro a b m m' ha hb hne hm hm'
    exact h.apart a b m m' (hhead a ha) (hhead b hb) hne (hchain.mp hm) (hchain.mp hm')
  · intro q r hq hr he
    obtain ⟨hne, hq₀, heq⟩ | ⟨rfl, hin⟩ := hreach q hq
    · obtain ⟨-, hr₀, her⟩ | ⟨rfl, hin⟩ := hreach r hr
      · exact h.slots q r hq₀ hr₀ (by rwa [heq, her] at he)
      · rw [heq, hfirst] at he
        exact absurd he ((hcond hin).2.1 q hne hq₀)
    · obtain ⟨hne, hr₀, her⟩ | ⟨rfl, -⟩ := hreach r hr
      · rw [her, hfirst] at he
        exact absurd he.symm ((hcond hin).2.1 r hne hr₀)
      · rfl
  · intro q hq hheld'
    obtain ⟨-, hq, heq⟩ | ⟨rfl, hin⟩ := hreach q hq
    · rw [heq] at hheld' ⊢
      exact h.regular q hq (hheld _ hheld')
    · rw [hfirst] at hheld'
      rw [slotEntry_writeSlot_attributes]
      exact fun hs => ((hcond hin).2.2 hs).1 hheld'

end Store
end MalapropOS.Fat
