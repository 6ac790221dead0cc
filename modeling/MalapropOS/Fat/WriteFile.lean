import MalapropOS.Fat.Splice

/-! `write_to_file` on a file whose chain ends at an end mark: the chain still ends at one. -/
namespace MalapropOS.Fat
open LinkedChain

/-- The disk `d'` after `k` bytes of `buf` went to the offset `o` of the chain `l` of `d` that
starts at `c₀`, and which has got the clusters `new`. -/
structure Written (fs : Fat16) (d : Disk) (c₀ : Nat) (l : List Nat) (o : Nat) (buf : Buffer)
    (k : Nat) (d' : Disk) (new : List Nat) : Prop where
  taken : new = (freeClusters fs d).take new.length
  valid : ∀ c ∈ new, 2 ≤ c
  left : freeClusters fs d' = (freeClusters fs d).drop new.length
  links : ∃ e, 0xfff8 ≤ e ∧ Path (getSuccessorCluster fs d') c₀ (l ++ new) e
  within : o + k ≤ (l ++ new).length * bytesPerCluster fs
  data : ∀ x < (l ++ new).length * bytesPerCluster fs, chainByte fs d' (l ++ new) x =
    if o ≤ x ∧ x < o + k then buf (x - o) else chainByte fs d (l ++ new) x
  frame : ∀ s b, d' s b ≠ d s b →
    ∃ c ∈ l ++ new, DataByte fs c s b ∨ (FatByte fs c s b ∧ new ≠ [])

variable {fs : Fat16} (hl : Layout fs) {d d₁ : Disk} {c₀ : Nat} {l new : List Nat} {o k : Nat}
  {buf : Buffer}

/-- No element of a chain that ends at an end mark is free. -/
theorem path_successor_ne_zero {next : Nat → Nat} {c e : Nat} {l : List Nat}
    (h : Path next c l e) (he : 0xfff8 ≤ e) (hl : ∀ a ∈ l, 2 ≤ a) : ∀ a ∈ l, next a ≠ 0 := by
  induction l generalizing c with
  | nil => simp
  | cons b l ih =>
    have hb : next b ≠ 0 := by
      cases l with
      | nil =>
        have : next b = e := h.2
        omega
      | cons a l =>
        have h1 : a = next b := h.2.1
        have h2 := hl a (by simp)
        omega
    simp only [List.forall_mem_cons]
    exact ⟨hb, ih h.2 fun a ha => hl a (List.mem_cons_of_mem _ ha)⟩

theorem FileChain.successor_ne_zero (hc : FileChain fs d c₀ l) :
    ∀ a ∈ l, getSuccessorCluster fs d a ≠ 0 := by
  obtain ⟨e, he, hp⟩ := hc.ends
  exact path_successor_ne_zero hp he fun a ha => (hc.inTable a ha).1

theorem FileChain.disjoint_free (hc : FileChain fs d c₀ l) : l.Disjoint (freeClusters fs d) :=
  fun a ha hf => hc.successor_ne_zero a ha (mem_freeClusters.mp hf).2

theorem Spliced.written {e : Nat} (he : 0xfff8 ≤ e) (hs : Spliced fs d c₀ l e o buf k d₁ new) :
    Written fs d c₀ l o buf k d₁ new where
  taken := hs.taken
  valid := hs.valid
  left := hs.left
  links := by
    refine ⟨_, ?_, hs.links⟩
    by_cases hn : new = [] <;> simp [hn, he]
  within := hs.within
  data := hs.data
  frame := hs.frame

theorem Written.start (hc : FileChain fs d c₀ l) (ho : o ≤ l.length * bytesPerCluster fs) :
    Written fs d c₀ l o buf 0 d [] where
  taken := by simp
  valid := by simp
  left := by simp
  links := by simpa using hc.ends
  within := by simpa using ho
  data x hx := by rw [if_neg (by omega)]
  frame s b h := absurd rfl h

theorem Written.new_inTable (hw : Written fs d c₀ l o buf k d₁ new) :
    ∀ c ∈ new, 2 ≤ c ∧ c < numEntries fs ∧ getSuccessorCluster fs d c = 0 := by
  intro c hc
  have hm : c ∈ freeClusters fs d := List.mem_of_mem_take (hw.taken ▸ hc)
  exact ⟨hw.valid c hc, mem_freeClusters.mp hm⟩

theorem Written.inTable (hc : FileChain fs d c₀ l) (hw : Written fs d c₀ l o buf k d₁ new) :
    ∀ a ∈ l ++ new, 2 ≤ a ∧ a < numEntries fs := by
  intro a ha
  cases List.mem_append.mp ha with
  | inl ha => exact hc.inTable a ha
  | inr ha => exact ⟨(hw.new_inTable a ha).1, (hw.new_inTable a ha).2.1⟩

theorem Written.nodup (hc : FileChain fs d c₀ l) (hw : Written fs d c₀ l o buf k d₁ new) :
    (l ++ new).Nodup := by
  rw [List.nodup_append]
  refine ⟨hc.nodup, ?_, ?_⟩
  · rw [hw.taken]
    exact freeClusters_nodup.sublist (List.take_sublist _ _)
  · rintro a ha _ hb rfl
    exact hc.successor_ne_zero a ha (hw.new_inTable a hb).2.2

/-- The file afterwards. -/
theorem Written.fileChain (hc : FileChain fs d c₀ l) (hw : Written fs d c₀ l o buf k d₁ new) :
    FileChain fs d₁ c₀ (l ++ new) :=
  ⟨by simp [hc.nonempty], hw.nodup hc, hw.inTable hc, hw.links⟩

include hl

theorem Written.successor_eq (hw : Written fs d c₀ l o buf k d₁ new) {a : Nat}
    (ha : a < numEntries fs) (hn : a ∉ l ++ new) :
    getSuccessorCluster fs d₁ a = getSuccessorCluster fs d a := by
  refine getSuccessorCluster_congr hl.geometry fun s b hb => ?_
  by_contra hne
  obtain ⟨c, hc, hd | ⟨hf, -⟩⟩ := hw.frame s b hne
  · exact hb.not_data hl.geometry ha hd
  · exact hn (hb.unique hl.geometry hf ▸ hc)

theorem FileChain.inChain (hc : FileChain fs d c₀ l) {a : Nat} (ha : a ∈ l) : InChain a := by
  obtain ⟨e, -, hc⟩ := hc.chain hl
  exact hc.inside a ha

theorem FileChain.length_lt (hc : FileChain fs d c₀ l) : l.length < 2 ^ 16 := by
  obtain ⟨e, -, hc⟩ := hc.chain hl
  exact hc.length_lt

/-- `write_to_file` at an offset inside the chain. It writes all bytes, or it stops at the end
of the last free cluster. -/
theorem writeToFile_written (hc : FileChain fs d c₀ l) (ho : o < l.length * bytesPerCluster fs)
    (buf : Buffer) (num : Nat) :
    ∃ d' k new, writeToFile fs d c₀ o buf num = (d', k) ∧ Written fs d c₀ l o buf k d' new ∧
      k ≤ num ∧ (k < num → findFirstFreeCluster fs d' < 2 ∧
        o + k = (l ++ new).length * bytesPerCluster fs) := by
  obtain ⟨e, he, hchain⟩ := hc.chain hl
  have hf : ∀ c ∈ freeClusters fs d, c < 0xfff0 :=
    fun c hm => (mem_freeClusters.mp hm).1.trans_le hl.entries
  obtain ⟨d', k, new, hres, hs, hk, -, hstop⟩ :=
    writeToFile_spliced hl.geometry hchain hc.disjoint_free hf ho buf num
  exact ⟨d', k, new, hres, hs.written he, hk, hstop⟩

omit hl in
/-- Without bytes to write `write_to_file` changes nothing, wherever the offset is. -/
theorem writeToFile_nothing (d : Disk) (c₀ o : Nat) (buf : Buffer) :
    writeToFile fs d c₀ o buf 0 = (d, 0) := by
  have hcopy (x : Buffer) (i : Nat) : stdmemCopy x i buf 0 0 = x := by
    funext k
    exact if_neg (by omega)
  simp only [writeToFile, numBytesInFirstCluster, Nat.zero_min, writeClusters, growClusters,
    writePart, hcopy, writeCluster_loadCluster]

end MalapropOS.Fat
