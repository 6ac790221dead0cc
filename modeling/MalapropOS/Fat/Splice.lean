import MalapropOS.Fat.Chains

/-! `write_to_file` puts bytes into the contents of a file: from the offset on the data is the
buffer's, the chain grows by the first free clusters where it is too short, and the other clusters
and the other entries of the table stay as they are. -/
namespace MalapropOS.Fat
open LinkedChain

/-- The free clusters, in the order in which they are found. -/
def freeClusters (fs : Fat16) (d : Disk) : List Nat :=
  (List.range (numEntries fs)).filter fun c => getSuccessorCluster fs d c = 0

/-- The disk `d'` after `k` bytes of `buf` went to the offset `o` of the chain `l` of `d`, from `c₀`
up to `e`, that has got the clusters `new`. -/
structure Spliced (fs : Fat16) (d : Disk) (c₀ : Nat) (l : List Nat) (e o : Nat) (buf : Buffer)
    (k : Nat) (d' : Disk) (new : List Nat) : Prop where
  taken : new = (freeClusters fs d).take new.length
  valid : ∀ c ∈ new, 2 ≤ c
  left : freeClusters fs d' = (freeClusters fs d).drop new.length
  links : Path (getSuccessorCluster fs d') c₀ (l ++ new) (if new = [] then e else 0xFFFF)
  within : o + k ≤ (l ++ new).length * bytesPerCluster fs
  data : ∀ x < (l ++ new).length * bytesPerCluster fs, chainByte fs d' (l ++ new) x =
    if o ≤ x ∧ x < o + k then buf (x - o) else chainByte fs d (l ++ new) x
  frame : ∀ s b, d' s b ≠ d s b →
    ∃ c ∈ l ++ new, DataByte fs c s b ∨ (FatByte fs c s b ∧ new ≠ [])

section Parts
variable {fs : Fat16} {d : Disk}

theorem mem_freeClusters {c : Nat} :
    c ∈ freeClusters fs d ↔ c < numEntries fs ∧ getSuccessorCluster fs d c = 0 := by
  simp [freeClusters]

theorem freeClusters_nodup : (freeClusters fs d).Nodup := List.nodup_range.filter _

theorem freeClusters_congr {d' : Disk}
    (h : ∀ c < numEntries fs, getSuccessorCluster fs d' c = getSuccessorCluster fs d c) :
    freeClusters fs d' = freeClusters fs d := by
  refine List.filter_congr fun c hc => ?_
  rw [h c (List.mem_range.mp hc)]

theorem freeClusters_marked {d' : Disk} {c : Nat} {rest : List Nat}
    (h : freeClusters fs d = c :: rest)
    (hm : ∀ a, getSuccessorCluster fs d' a = 0 ↔ getSuccessorCluster fs d a = 0 ∧ a ≠ c) :
    freeClusters fs d' = rest := by
  have hn : c ∉ rest := (List.nodup_cons.mp (h ▸ freeClusters_nodup : (c :: rest).Nodup)).1
  have hf : freeClusters fs d' = (freeClusters fs d).filter (· ≠ c) := by
    rw [freeClusters, freeClusters, List.filter_filter]
    refine List.filter_congr fun a _ => ?_
    simp only [hm, Bool.decide_and, Bool.and_comm]
  rw [hf, h, List.filter_cons_of_neg (by simp), List.filter_eq_self]
  intro a ha
  simpa using fun he : a = c => hn (he ▸ ha)

theorem findFirstFreeCluster_eq_head (he : 2 ∣ fs.bytesPerSector)
    (hf : ∀ c ∈ freeClusters fs d, c < 2 ^ 16) :
    findFirstFreeCluster fs d = (freeClusters fs d).head?.getD 0 := by
  rw [findFirstFreeCluster_eq he d fun c hc h => hf c (mem_freeClusters.mpr ⟨hc, h⟩),
    freeClusters, List.head?_filter]

/-- What the clusters hold after a part of one was overwritten. -/
theorem loadCluster_writePart {c c' i j n k : Nat} (hc : 2 ≤ c) (hc₁ : c < 2 ^ 16) (hc' : 2 ≤ c')
    (hc₁' : c' < 2 ^ 16) (buf : Buffer) (hk : k < bytesPerCluster fs) :
    loadCluster fs (writePart fs d c i buf j n) c' k =
      if c' = c ∧ i ≤ k ∧ k < i + n then buf (j + (k - i)) else loadCluster fs d c' k := by
  rw [writePart, loadCluster_writeCluster fs d hc hc₁ hc' hc₁' _ hk]
  by_cases h : c' = c
  · subst h
    by_cases hik : i ≤ k ∧ k < i + n <;> simp [stdmemCopy, hik]
  · simp [h]

variable (hg : Geometry fs)
include hg

theorem getSuccessor_writePart {c a i j n : Nat} (ha : a < numEntries fs) (hc : 2 ≤ c)
    (hc' : c < 2 ^ 16) (buf : Buffer) :
    getSuccessorCluster fs (writePart fs d c i buf j n) a = getSuccessorCluster fs d a :=
  hg.get_writeCluster d ha hc hc' _

end Parts

section Steps
variable {fs : Fat16} (hg : Geometry fs) {d d₁ : Disk} {c₀ e : Nat} {l new : List Nat} {o k : Nat}
  {buf : Buffer}

theorem Spliced.start (hc : Chain fs d c₀ l e) (ho : o ≤ l.length * bytesPerCluster fs) :
    Spliced fs d c₀ l e o buf 0 d [] where
  taken := by simp
  valid := by simp
  left := by simp
  links := by simpa using hc.path
  within := by simpa using ho
  data x hx := by rw [if_neg (by omega)]
  frame s b h := absurd rfl h

theorem Spliced.new_free (hs : Spliced fs d c₀ l e o buf k d₁ new) {c : Nat} (hc : c ∈ new) :
    c ∈ freeClusters fs d :=
  List.mem_of_mem_take (hs.taken ▸ hc)

variable (hc : Chain fs d c₀ l e) (hd : l.Disjoint (freeClusters fs d))
  (hf : ∀ c ∈ freeClusters fs d, c < 0xfff0)

include hc hf in
theorem Spliced.clusters (hs : Spliced fs d c₀ l e o buf k d₁ new) :
    ∀ a ∈ l ++ new, InChain a ∧ a < numEntries fs := by
  intro a ha
  cases List.mem_append.mp ha with
  | inl ha => exact ⟨hc.inside a ha, hc.inTable a ha⟩
  | inr ha =>
    have hm := hs.new_free ha
    exact ⟨⟨hs.valid a ha, hf a hm⟩, (mem_freeClusters.mp hm).1⟩

include hc hd in
theorem Spliced.nodup (hs : Spliced fs d c₀ l e o buf k d₁ new) : (l ++ new).Nodup := by
  rw [List.nodup_append']
  refine ⟨hc.nodup, ?_, fun a ha hb => hd ha (hs.new_free hb)⟩
  rw [hs.taken]
  exact freeClusters_nodup.sublist (List.take_sublist _ _)

include hd in
/-- The clusters of the chain are taken. -/
theorem Spliced.not_free (hs : Spliced fs d c₀ l e o buf k d₁ new) {a : Nat} (ha : a ∈ l ++ new) :
    a ∉ freeClusters fs d₁ := by
  rw [hs.left]
  intro hm
  cases List.mem_append.mp ha with
  | inl ha => exact hd ha (List.mem_of_mem_drop hm)
  | inr ha =>
    rw [hs.taken] at ha
    exact List.disjoint_take_drop freeClusters_nodup (Nat.le_refl _) ha hm

include hg

theorem Spliced.successor_eq (hs : Spliced fs d c₀ l e o buf k d₁ new) {a : Nat}
    (ha : a < numEntries fs) (hn : a ∉ l ++ new) :
    getSuccessorCluster fs d₁ a = getSuccessorCluster fs d a := by
  refine getSuccessorCluster_congr hg fun s b hb => ?_
  by_contra hne
  obtain ⟨c, hc, hd | ⟨hf, -⟩⟩ := hs.frame s b hne
  · exact hb.not_data hg ha hd
  · exact hn (hb.unique hg hf ▸ hc)

include hc hf

theorem Spliced.load_eq (hs : Spliced fs d c₀ l e o buf k d₁ new) {a : Nat} (ha : 2 ≤ a)
    (ha' : a < 2 ^ 16) (hn : a ∉ l ++ new) : loadCluster fs d₁ a = loadCluster fs d a := by
  refine loadCluster_congr ha ha' fun s b hb => ?_
  by_contra hne
  obtain ⟨c, hm, hd | ⟨hf', -⟩⟩ := hs.frame s b hne
  · exact hn (DataByte.unique ha (hs.clusters hc hf c hm).1.1 hb hd ▸ hm)
  · exact hf'.not_data hg (hs.clusters hc hf c hm).2 hb

include hd

/-- One more cluster of the chain gets its part of the data. -/
theorem Spliced.put (hs : Spliced fs d c₀ l e o buf k d₁ new) {j i n : Nat}
    (hj : j < (l ++ new).length) (ho : o + k = j * bytesPerCluster fs + i)
    (hn : i + n ≤ bytesPerCluster fs) :
    Spliced fs d c₀ l e o buf (k + n) (writePart fs d₁ ((l ++ new).getD j 0) i buf k n) new := by
  have hin (x : Nat) (hx : x < (l ++ new).length) := hs.clusters hc hf _ (getD_mem hx)
  obtain ⟨⟨h2, hlt⟩, ht⟩ := hin j hj
  have h16 : (l ++ new).getD j 0 < 2 ^ 16 := hlt.trans (by decide)
  have hget (a : Nat) (ha : a < numEntries fs) :=
    getSuccessor_writePart hg (d := d₁) (i := i) (j := k) (n := n) ha h2 h16 buf
  refine ⟨hs.taken, hs.valid, ?_, ?_, ?_, ?_, ?_⟩
  · rw [freeClusters_congr hget, hs.left]
  · exact hs.links.congr fun a ha => hget a (hs.clusters hc hf a ha).2
  · have : (j + 1) * bytesPerCluster fs ≤ (l ++ new).length * bytesPerCluster fs :=
      Nat.mul_le_mul_right _ hj
    rw [Nat.add_mul] at this
    omega
  · intro x hx
    have hxj : x / bytesPerCluster fs < (l ++ new).length :=
      (Nat.div_lt_iff_lt_mul (bytesPerCluster_pos fs)).mpr hx
    have hinj : (l ++ new).getD (x / bytesPerCluster fs) 0 = (l ++ new).getD j 0 ↔
        x / bytesPerCluster fs = j := by
      rw [List.getD_eq_getElem _ _ hxj, List.getD_eq_getElem _ _ hj]
      exact (hs.nodup hc hd).getElem_inj_iff
    obtain ⟨⟨h2x, hltx⟩, -⟩ := hin _ hxj
    have hdm := Nat.div_add_mod x (bytesPerCluster fs)
    have hmod := Nat.mod_lt x (bytesPerCluster_pos fs)
    rw [chainByte, loadCluster_writePart h2 h16 h2x (hltx.trans (by decide)) buf hmod]
    have hold := hs.data x hx
    rw [chainByte] at hold
    by_cases hp : x / bytesPerCluster fs = j
    · rw [hp, Nat.mul_comm] at hdm
      by_cases hr : i ≤ x % bytesPerCluster fs ∧ x % bytesPerCluster fs < i + n
      · rw [if_pos ⟨hinj.mpr hp, hr⟩, if_pos (by omega)]
        congr 1
        omega
      · rw [if_neg (fun h => hr h.2), hold]
        exact if_congr (by omega) rfl rfl
    · rw [if_neg (fun h => hp (hinj.mp h.1)), hold]
      refine if_congr ?_ rfl rfl
      -- the new range lies in cluster `j` of the chain, the byte does not
      have key : ¬ (o + k ≤ x ∧ x < o + (k + n)) := by
        intro ⟨h₁, h₂⟩
        exact hp (Nat.div_eq_of_lt_le (by omega) (by rw [Nat.add_mul]; omega))
      omega
  · intro s b hne
    by_cases h₁ : d₁ s b = d s b
    · exact ⟨_, getD_mem hj, Or.inl (writeCluster_frame d₁ h2 h16 (h₁ ▸ hne))⟩
    · exact hs.frame s b h₁

omit hc hd in
/-- The free clusters that are left start with the one that is found first. -/
theorem Spliced.head_free (hs : Spliced fs d c₀ l e o buf k d₁ new) {c : Nat}
    (hfind : findFirstFreeCluster fs d₁ = c) (h2 : 2 ≤ c) :
    freeClusters fs d₁ = c :: (freeClusters fs d).drop (new.length + 1) := by
  rw [findFirstFreeCluster_eq_head hg.even fun a ha =>
    (hf a (List.mem_of_mem_drop (hs.left ▸ ha))).trans (by decide)] at hfind
  cases hfc : freeClusters fs d₁ with
  | nil =>
    rw [hfc] at hfind
    simp only [List.head?_nil, Option.getD_none] at hfind
    omega
  | cons b rest =>
    rw [hfc] at hfind
    obtain rfl : b = c := by simpa using hfind
    rw [← List.drop_drop, ← hs.left, hfc, List.drop_succ_cons, List.drop_zero]

omit hc hd hf in
/-- The cluster `z` at the end of the chain is made to lead to `c`, where the chain ends now. -/
theorem getSuccessorCluster_link (d : Disk) {z c : Nat} (hc : c < 2 ^ 16) (a : Nat) :
    getSuccessorCluster fs (setSuccessorCluster fs (setSuccessorCluster fs d z c) c 0xFFFF) a =
      if a = c then 0xFFFF else if a = z then c else getSuccessorCluster fs d a := by
  rw [getSuccessorCluster_set _ hg.even _ _ (by decide), getSuccessorCluster_set _ hg.even _ _ hc]

omit hc hd hf in
theorem link_frame {d : Disk} {z c v w s b : Nat}
    (hne : setSuccessorCluster fs (setSuccessorCluster fs d z v) c w s b ≠ d s b) :
    FatByte fs c s b ∨ FatByte fs z s b := by
  by_cases h : setSuccessorCluster fs d z v s b = d s b
  · exact Or.inl (setSuccessorCluster_frame hg _ fun he => hne (he.trans h))
  · exact Or.inr (setSuccessorCluster_frame hg _ h)

omit hg hf in
theorem Spliced.grow_links (hs : Spliced fs d c₀ l e o buf k d₁ new)
    {c z : Nat} {init : List Nat} (hz : l ++ new = init ++ [z]) (hcn : c ∉ l ++ new) {d₂ : Disk}
    (hget : ∀ a, getSuccessorCluster fs d₂ a =
      if a = c then 0xFFFF else if a = z then c else getSuccessorCluster fs d₁ a) :
    Path (getSuccessorCluster fs d₂) c₀ (l ++ (new ++ [c])) 0xFFFF := by
  have hp := hs.links
  have hcz : z ≠ c := fun h => hcn (by simp [hz, h])
  rw [← List.append_assoc, path_concat]
  refine ⟨?_, by simp [hget]⟩
  rw [hz] at hp hcn ⊢
  refine hp.redirect ?_ (fun a ha haz => ?_) ?_
  · have := hz ▸ hs.nodup hc hd
    simpa using (List.nodup_append.mp this).2.2 z
  · rw [hget, if_neg (fun h => hcn (by simp [← h, ha])), if_neg haz]
  · simp [hget, hcz]

omit hd in
/-- Behind the old end of the chain is what the free cluster held. -/
theorem Spliced.grow_data (hs : Spliced fs d c₀ l e o buf k d₁ new) {c : Nat} (h2 : 2 ≤ c)
    (hc₁ : c < 2 ^ 16) (hcn : c ∉ l ++ new) {d₂ : Disk}
    (hload : ∀ a, 2 ≤ a → a < 2 ^ 16 → loadCluster fs d₂ a = loadCluster fs d₁ a) {x : Nat}
    (hx : x < (l ++ new ++ [c]).length * bytesPerCluster fs) :
    chainByte fs d₂ (l ++ new ++ [c]) x =
      if o ≤ x ∧ x < o + k then buf (x - o) else chainByte fs d (l ++ new ++ [c]) x := by
  rw [List.length_append, List.length_singleton] at hx
  have hxj : x / bytesPerCluster fs < (l ++ new).length + 1 :=
    (Nat.div_lt_iff_lt_mul (bytesPerCluster_pos fs)).mpr hx
  by_cases hold : x / bytesPerCluster fs < (l ++ new).length
  · have hx' := (Nat.div_lt_iff_lt_mul (bytesPerCluster_pos fs)).mp hold
    have hdx := hs.data x hx'
    simp only [chainByte, List.getD_append _ _ _ _ hold] at hdx ⊢
    have ha := (hs.clusters hc hf _ (getD_mem hold)).1
    rw [hload _ ha.1 (ha.2.trans (by decide)), hdx]
  · have hge : (l ++ new).length * bytesPerCluster fs ≤ x :=
      Nat.le_of_not_lt fun hlt => hold ((Nat.div_lt_iff_lt_mul (bytesPerCluster_pos fs)).mpr hlt)
    have hw := hs.within
    have hq : x / bytesPerCluster fs = (l ++ new).length := by omega
    simp only [chainByte, hq, List.getD_append_right _ _ _ _ (Nat.le_refl _), Nat.sub_self,
      List.getD_cons_zero]
    rw [if_neg (by omega), hload c h2 hc₁, hs.load_eq hg hc hf h2 hc₁ hcn]

/-- The chain gets a free cluster, which keeps what it holds. -/
theorem Spliced.grow (hs : Spliced fs d c₀ l e o buf k d₁ new) {c z : Nat} {init : List Nat}
    (hz : l ++ new = init ++ [z]) (hfind : findFirstFreeCluster fs d₁ = c) (h2 : 2 ≤ c) :
    Spliced fs d c₀ l e o buf k (setSuccessorCluster fs (setSuccessorCluster fs d₁ z c) c 0xFFFF)
      (new ++ [c]) := by
  have hin := hs.clusters hc hf
  have hzm : z ∈ l ++ new := by simp [hz]
  have hhead := hs.head_free hg hf hfind h2
  have hcf : c ∈ freeClusters fs d₁ := hhead ▸ List.mem_cons_self
  obtain ⟨hct, hc0⟩ := mem_freeClusters.mp hcf
  have hcn : c ∉ l ++ new := fun hm => hs.not_free hd hm hcf
  have hc16 : c < 2 ^ 16 := (hf c (List.mem_of_mem_drop (hs.left ▸ hcf))).trans (by decide)
  have hget := getSuccessorCluster_link (z := z) hg d₁ hc16
  have hload (a : Nat) (ha : 2 ≤ a) (ha' : a < 2 ^ 16) : loadCluster fs
      (setSuccessorCluster fs (setSuccessorCluster fs d₁ z c) c 0xFFFF) a = loadCluster fs d₁ a := by
    rw [hg.load_setSuccessor _ hct ha ha', hg.load_setSuccessor _ (hin z hzm).2 ha ha']
  have hlen : (new ++ [c]).length = new.length + 1 := by simp
  refine ⟨?_, ?_, ?_, ?_, ?_, ?_, ?_⟩
  · have hat := hs.left ▸ hhead
    have htake : (freeClusters fs d).take (new.length + 1) =
        (freeClusters fs d).take new.length ++ [c] := by
      rw [List.take_add, hat]
      simp
    rw [hlen, htake, ← hs.taken]
  · intro a ha
    cases List.mem_append.mp ha with
    | inl ha => exact hs.valid a ha
    | inr ha => exact List.mem_singleton.mp ha ▸ h2
  · rw [hlen]
    refine freeClusters_marked hhead fun a => ?_
    rw [hget]
    by_cases hac : a = c
    · simp [hac]
    · by_cases haz : a = z
      · subst haz
        have hz0 := mt (fun h0 => mem_freeClusters.mpr ⟨(hin a hzm).2, h0⟩) (hs.not_free hd hzm)
        simp only [hac, if_false, if_true, ne_eq, not_false_eq_true, and_true]
        exact iff_of_false (by omega) hz0
      · simp [hac, haz]
  · rw [if_neg (by simp)]
    exact hs.grow_links hc hd hz hcn hget
  · have := hs.within
    rw [← List.append_assoc, List.length_append, List.length_singleton, Nat.add_mul]
    omega
  · rw [← List.append_assoc]
    exact fun x hx => hs.grow_data hg hc hf h2 hc16 hcn hload hx
  · intro s b hne
    rw [← List.append_assoc]
    by_cases h₁ : d₁ s b = d s b
    · cases link_frame hg (h₁ ▸ hne) with
      | inl hb => exact ⟨c, by simp, Or.inr ⟨hb, by simp⟩⟩
      | inr hb => exact ⟨z, List.mem_append_left _ hzm, Or.inr ⟨hb, by simp⟩⟩
    · obtain ⟨a, ha, hb⟩ := hs.frame s b h₁
      exact ⟨a, List.mem_append_left _ ha, hb.imp_right fun hf => ⟨hf.1, by simp⟩⟩

end Steps

section Loops
variable {fs : Fat16} (hg : Geometry fs) {d : Disk} {c₀ e : Nat} {l : List Nat} {o : Nat}
  {buf : Buffer} (hc : Chain fs d c₀ l e) (hd : l.Disjoint (freeClusters fs d))
  (hf : ∀ c ∈ freeClusters fs d, c < 0xfff0)

include hc in
theorem Spliced.chain {k : Nat} {d₁ : Disk} (hs : Spliced fs d c₀ l e o buf k d₁ []) :
    Chain fs d₁ c₀ l e where
  inside := hc.inside
  stop := hc.stop
  path := by simpa using hs.links
  inTable := hc.inTable

include hg hc hd hf

/-- The second loop fills the clusters that the file has, up to its end. -/
theorem writeClusters_spliced (num fuel : Nat) (w : WriteState) (j : Nat) (hj : j < l.length)
    (hs : Spliced fs d c₀ l e o buf w.numBytesWritten w.disk [])
    (hk : w.numBytesWritten ≤ num)
    (hpos : w.numBytesWritten < num → o + w.numBytesWritten = (j + 1) * bytesPerCluster fs)
    (hprev : w.previousClusterNum = l.getD j 0)
    (hcur : w.currentClusterNum = getSuccessorCluster fs w.disk w.previousClusterNum)
    (hfuel : num - w.numBytesWritten ≤ fuel) :
    ∃ w', writeClusters fs buf num fuel w = w' ∧
      Spliced fs d c₀ l e o buf w'.numBytesWritten w'.disk [] ∧ w'.numBytesWritten ≤ num ∧
      (w'.numBytesWritten < num → o + w'.numBytesWritten = l.length * bytesPerCluster fs ∧
        w'.previousClusterNum = l.getD (l.length - 1) 0) := by
  induction fuel generalizing w j with
  | zero =>
    exact ⟨w, rfl, hs, hk, fun h => by omega⟩
  | succ fuel ih =>
    have hchain := hs.chain hc
    have hgoes := hchain.inChain_next hj
    have hnext := (hchain.next hj).1
    rw [← hprev, ← hcur] at hgoes hnext
    by_cases hgo : InChain w.currentClusterNum ∧ w.numBytesWritten < num
    · have hj' : j + 1 < l.length := hgoes.mp hgo.1
      have hb := bytesPerCluster_pos fs
      have hn : numBytesInCluster fs num w.numBytesWritten ≤ bytesPerCluster fs :=
        Nat.min_le_right _ _
      have hput := hs.put hg hc hd hf (j := j + 1) (i := 0)
        (n := numBytesInCluster fs num w.numBytesWritten) (by simpa using hj')
        (by simpa using hpos hgo.2) (by omega)
      rw [List.append_nil, ← hnext hj'] at hput
      rw [writeClusters, if_pos hgo]
      refine ih _ (j + 1) hj' hput ?_ ?_ (hnext hj') rfl ?_
      · simp only [numBytesInCluster]
        omega
      · simp only [numBytesInCluster]
        intro hlt
        have := hpos hgo.2
        rw [Nat.add_mul _ 1]
        omega
      · simp only [numBytesInCluster]
        omega
    · refine ⟨w, by rw [writeClusters, if_neg hgo], hs, hk, fun hlt => ?_⟩
      -- the loop has stopped before all is written, so the chain is at its end
      have hend : j + 1 = l.length := by
        by_contra hn
        exact hgo ⟨hgoes.mpr (by omega), hlt⟩
      exact ⟨by rw [hpos hlt, hend], by rw [hprev, ← hend, Nat.add_sub_cancel]⟩

/-- The third loop takes free clusters until all is written or none is found. -/
theorem growClusters_spliced (num fuel : Nat) (w : WriteState) (new init : List Nat)
    (hs : Spliced fs d c₀ l e o buf w.numBytesWritten w.disk new)
    (hk : w.numBytesWritten ≤ num)
    (hneed : new ≠ [] →
      (l ++ new).length * bytesPerCluster fs < o + w.numBytesWritten + bytesPerCluster fs)
    (hpos : w.numBytesWritten < num →
      o + w.numBytesWritten = (l ++ new).length * bytesPerCluster fs ∧
      l ++ new = init ++ [w.previousClusterNum])
    (hfuel : num - w.numBytesWritten ≤ fuel) :
    ∃ w' new', growClusters fs buf num fuel w = w' ∧
      Spliced fs d c₀ l e o buf w'.numBytesWritten w'.disk new' ∧ w'.numBytesWritten ≤ num ∧
      (new' ≠ [] →
        (l ++ new').length * bytesPerCluster fs < o + w'.numBytesWritten + bytesPerCluster fs) ∧
      (w'.numBytesWritten < num → findFirstFreeCluster fs w'.disk < 2 ∧
        o + w'.numBytesWritten = (l ++ new').length * bytesPerCluster fs) := by
  induction fuel generalizing w new init with
  | zero => exact ⟨w, new, rfl, hs, hk, hneed, fun h => by omega⟩
  | succ fuel ih =>
    by_cases hlt : w.numBytesWritten < num
    · obtain ⟨hend, hprev⟩ := hpos hlt
      by_cases hfree : findFirstFreeCluster fs w.disk < 2
      · exact ⟨w, new, by rw [growClusters, if_pos hlt, if_pos hfree], hs, hk, hneed,
          fun _ => ⟨hfree, hend⟩⟩
      · rw [growClusters, if_pos hlt, if_neg hfree]
        have hgrow := hs.grow hg hc hd hf hprev rfl (Nat.le_of_not_lt hfree)
        have hb := bytesPerCluster_pos fs
        have hn : numBytesInCluster fs num w.numBytesWritten ≤ bytesPerCluster fs :=
          Nat.min_le_right _ _
        have hput := hgrow.put hg hc hd hf (j := (l ++ new).length) (i := 0)
          (n := numBytesInCluster fs num w.numBytesWritten) (by simp) (by simpa using hend)
          (by omega)
        rw [← List.append_assoc, List.getD_append_right _ _ _ _ (Nat.le_refl _), Nat.sub_self,
          List.getD_cons_zero] at hput
        have hlen : (l ++ (new ++ [findFirstFreeCluster fs w.disk])).length * bytesPerCluster fs =
            (l ++ new).length * bytesPerCluster fs + bytesPerCluster fs := by
          rw [← List.append_assoc, List.length_append, List.length_singleton, Nat.add_mul,
            Nat.one_mul]
        refine ih _ (new ++ [findFirstFreeCluster fs w.disk]) (l ++ new) hput ?_ ?_ ?_ ?_
        · simp only [numBytesInCluster]
          omega
        · intro _
          simp only [numBytesInCluster, hlen]
          omega
        · simp only [numBytesInCluster, hlen]
          intro hlt'
          exact ⟨by omega, (List.append_assoc _ _ _).symm⟩
        · simp only [numBytesInCluster]
          omega
    · exact ⟨w, new, by rw [growClusters, if_neg hlt], hs, hk, hneed, fun h => absurd h hlt⟩

/-- `write_to_file` at an offset inside the chain. It writes all bytes, or it stops at the end
of the last free cluster. -/
theorem writeToFile_spliced (ho : o < l.length * bytesPerCluster fs) (buf : Buffer) (num : Nat) :
    ∃ d' k new, writeToFile fs d c₀ o buf num = (d', k) ∧ Spliced fs d c₀ l e o buf k d' new ∧
      k ≤ num ∧
      (new ≠ [] → (l ++ new).length * bytesPerCluster fs < o + k + bytesPerCluster fs) ∧
      (k < num → findFirstFreeCluster fs d' < 2 ∧
        o + k = (l ++ new).length * bytesPerCluster fs) := by
  obtain ⟨hj, hstarts⟩ := hc.dataStartsInCluster_eq ho
  have hlt := Nat.mod_lt o (bytesPerCluster_pos fs)
  have hsize := hg.clusterSize
  have hoff : dataOffsetInCluster fs o = o % bytesPerCluster fs := by
    rw [dataOffsetInCluster_eq, Nat.mod_eq_of_lt (by omega)]
  have hfirst := numBytesInFirstCluster_eq fs o num
  rw [hoff] at hfirst
  have hdm := Nat.div_add_mod o (bytesPerCluster fs)
  rw [Nat.mul_comm] at hdm
  have hstart : Spliced fs d c₀ l e o buf 0 d [] := .start hc ho.le
  have hput := hstart.put hg hc hd hf (j := o / bytesPerCluster fs) (i := o % bytesPerCluster fs)
    (n := min num (bytesPerCluster fs - o % bytesPerCluster fs)) (by simpa using hj)
    (by omega) (by omega)
  rw [List.append_nil, Nat.zero_add] at hput
  simp only [writeToFile, hstarts, hoff, hfirst, hc.walkChain_eq hj]
  generalize writePart fs d (l.getD (o / bytesPerCluster fs) 0) (o % bytesPerCluster fs) buf 0
    (min num (bytesPerCluster fs - o % bytesPerCluster fs)) = d₁ at hput ⊢
  obtain ⟨w, hw, hwr, hwk, hwpos⟩ := writeClusters_spliced hg hc hd hf num num
    ⟨d₁, l.getD (o / bytesPerCluster fs) 0,
      getSuccessorCluster fs d₁ (l.getD (o / bytesPerCluster fs) 0),
      min num (bytesPerCluster fs - o % bytesPerCluster fs)⟩ (o / bytesPerCluster fs)
    hj hput (Nat.min_le_left _ _) (fun h => by rw [Nat.add_mul]; simp only at h ⊢; omega) rfl rfl
    (Nat.sub_le _ _)
  rw [hw]
  have hne : l ≠ [] := List.ne_nil_of_length_pos (by omega)
  obtain ⟨w', new, hgrow, hgr, hgk, hgneed, hgpos⟩ := growClusters_spliced hg hc hd hf num num w []
    (l.take (l.length - 1)) hwr hwk (fun h => absurd rfl h) (fun h => by
      obtain ⟨h₁, h₂⟩ := hwpos h
      refine ⟨by simpa using h₁, ?_⟩
      rw [List.append_nil, h₂, List.getD_eq_getElem _ _ (by omega), ← List.getLast_eq_getElem
        hne, ← List.dropLast_eq_take, List.dropLast_append_getLast]) (Nat.sub_le _ _)
  rw [hgrow]
  exact ⟨_, _, new, rfl, hgr, hgk, hgneed, hgpos⟩

/-- The bytes written are those that find room in the chain and the free clusters. -/
theorem writeToFile_exact (ho : o < l.length * bytesPerCluster fs)
    (h2 : ∀ c ∈ freeClusters fs d, 2 ≤ c) (buf : Buffer) (num : Nat) :
    ∃ d' k new, writeToFile fs d c₀ o buf num = (d', k) ∧ Spliced fs d c₀ l e o buf k d' new ∧
      (new ≠ [] → (l ++ new).length * bytesPerCluster fs < o + k + bytesPerCluster fs) ∧
      k = min num ((l.length + (freeClusters fs d).length) * bytesPerCluster fs - o) := by
  obtain ⟨d', k, new, hres, hs, hk, hneed, hstop⟩ := writeToFile_spliced hg hc hd hf ho buf num
  refine ⟨d', k, new, hres, hs, hneed, ?_⟩
  have hle : new.length ≤ (freeClusters fs d).length := by
    rw [hs.taken, List.length_take]
    exact Nat.min_le_right _ _
  have hroom := Nat.mul_le_mul_right (bytesPerCluster fs) (Nat.add_le_add_left hle l.length)
  have hwithin := hs.within
  rw [List.length_append] at hwithin
  by_cases hlt : k < num
  · obtain ⟨hfree, hcap⟩ := hstop hlt
    rw [findFirstFreeCluster_eq_head hg.even fun a ha =>
      (hf a (List.mem_of_mem_drop (hs.left ▸ ha))).trans (by decide), hs.left] at hfree
    -- a free cluster that is left would have been found
    have hnil : (freeClusters fs d).drop new.length = [] := by
      cases hdrop : (freeClusters fs d).drop new.length with
      | nil => rfl
      | cons a as =>
        have := h2 a (List.mem_of_mem_drop (hdrop ▸ List.mem_cons_self))
        rw [hdrop, List.head?_cons, Option.getD_some] at hfree
        omega
    have hall := Nat.le_antisymm hle (List.drop_eq_nil_iff.mp hnil)
    rw [List.length_append, hall] at hcap
    omega
  · omega

end Loops

end MalapropOS.Fat
