import MalapropOS.Fat.Append

/-! The contents of a file, the bytes in the clusters of its chain one after the other:
`write_to_file` puts bytes in and makes them longer, `sys_read` gives them out piece by piece. -/
namespace MalapropOS.Fat
open LinkedChain

/-- The shortest prefix `p` of `F` that is enough. -/
structure ShortestPrefix (enough : List Nat → Prop) (p F : List Nat) : Prop where
  isPrefix : p <+: F
  holds : enough p
  shortest : ∀ q, q <+: F → enough q → p.length ≤ q.length

/-- `k` bytes of `buf` take the place of those from the offset `o` on in the clusters `l`. Where
there is no room the chain gets the clusters `new`, in the order of the table, and then ends in
0xFFFF. The other clusters and the other entries are those of `d`. -/
structure IsSplice (fs : Fat16) (d : Disk) (c₀ : Nat) (l : List Nat) (e o : Nat) (buf : Buffer)
    (k : Nat) (d' : Disk) (new : List Nat) : Prop where
  grown : ShortestPrefix (fun p => o + k ≤ (l ++ p).length * bytesPerCluster fs) new
    (freeClusters fs d)
  chain : Chain fs d' c₀ (l ++ new) (if new = [] then e else 0xFFFF)
  put : ∀ x, o ≤ x → x < o + k → chainByte fs d' (l ++ new) x = buf (x - o)
  kept : ∀ x < l.length * bytesPerCluster fs, ¬ (o ≤ x ∧ x < o + k) →
    chainByte fs d' (l ++ new) x = chainByte fs d l x
  clusters : ∀ c, 2 ≤ c → c < 2 ^ 16 → c ∉ l ++ new → loadCluster fs d' c = loadCluster fs d c
  entries : ∀ c < numEntries fs, c ∉ l ++ new →
    getSuccessorCluster fs d' c = getSuccessorCluster fs d c

section Writing
variable {fs : Fat16} {d d' : Disk} {c₀ e : Nat} {l new : List Nat} {o k : Nat} {buf : Buffer}

/-- No prefix of the free clusters that leaves room for all bytes is shorter. -/
theorem Spliced.grown (hs : Spliced fs d c₀ l e o buf k d' new)
    (hneed : new ≠ [] → (l ++ new).length * bytesPerCluster fs < o + k + bytesPerCluster fs) :
    ShortestPrefix (fun p => o + k ≤ (l ++ p).length * bytesPerCluster fs) new
      (freeClusters fs d) where
  isPrefix := hs.taken ▸ List.take_prefix _ _
  holds := hs.within
  shortest q _ hq := by
    by_cases hn : new = []
    · simp [hn]
    · have hlt : (l ++ new).length * bytesPerCluster fs <
          ((l ++ q).length + 1) * bytesPerCluster fs := by
        rw [Nat.add_mul, Nat.one_mul]
        have := hneed hn
        omega
      have := Nat.lt_of_mul_lt_mul_right hlt
      rw [List.length_append, List.length_append] at this
      omega

/-- `write_to_file` splices: at an offset inside the chain it puts in as many bytes as there is
room for in the chain and in all free clusters. -/
theorem writeToFile_splice (hg : Geometry fs) (hc : Chain fs d c₀ l e)
    (hd : l.Disjoint (freeClusters fs d)) (ho : o < l.length * bytesPerCluster fs)
    (h0 : getSuccessorCluster fs d 0 ≠ 0) (h1 : getSuccessorCluster fs d 1 ≠ 0)
    (hf : ∀ c ∈ freeClusters fs d, c < 0xfff0) (buf : Buffer) {num : Nat} (hnum : num < 2 ^ 31) :
    ∃ d' k new, writeToFile fs d c₀ o buf num = (d', k) ∧ toInt32 k = k ∧
      k = min num ((l.length + (freeClusters fs d).length) * bytesPerCluster fs - o) ∧
      IsSplice fs d c₀ l e o buf k d' new := by
  have h2 : ∀ c ∈ freeClusters fs d, 2 ≤ c := by
    intro c hm
    have hz := (mem_freeClusters.mp hm).2
    have hne0 : c ≠ 0 := fun h => h0 (h ▸ hz)
    have hne1 : c ≠ 1 := fun h => h1 (h ▸ hz)
    omega
  obtain ⟨d', k, new, hres, hs, hneed, hk⟩ := writeToFile_exact hg hc hd hf ho h2 buf num
  refine ⟨d', k, new, hres, toInt32_of_lt (by omega), hk, ?_⟩
  have hstop : ¬ InChain (if new = [] then e else 0xFFFF) := by
    by_cases hn : new = []
    · simpa [hn] using hc.stop
    · simp [hn, InChain]
  exact {
    grown := hs.grown hneed
    chain := ⟨⟨fun a ha => (hs.clusters hc hf a ha).1, hstop, hs.links⟩,
      fun a ha => (hs.clusters hc hf a ha).2⟩
    put := fun x h₁ h₂ => (hs.data x (h₂.trans_le hs.within)).trans (if_pos ⟨h₁, h₂⟩)
    kept := fun x hx hn => by
      have hlen : l.length * bytesPerCluster fs ≤ (l ++ new).length * bytesPerCluster fs :=
        Nat.mul_le_mul_right _ (by simp)
      rw [hs.data x (hx.trans_le hlen), if_neg hn, chainByte_append new hx]
    clusters := fun c h₁ h₂ hn => hs.load_eq hg hc hf h₁ h₂ hn
    entries := fun c hct hn => hs.successor_eq hg hct hn }

/-- Forty bytes at offset 10 of a file of one cluster: the chain gets the first free one. -/
theorem shortFile_splice : ∃ d' k new,
    writeToFile smallVolume emptyDisk 2 10 (fun _ => 0x58) 40 = (d', k) ∧ toInt32 k = k ∧
      k = min 40 ((1 + (freeClusters smallVolume emptyDisk).length) * 32 - 10) ∧
      IsSplice smallVolume emptyDisk 2 [2] 0xFFFF 10 (fun _ => 0x58) k d' new := by
  have hnext : getSuccessorCluster smallVolume emptyDisk 2 = 0xFFFF := by decide +kernel
  have hc : Chain smallVolume emptyDisk 2 [2] 0xFFFF :=
    ⟨⟨by decide, by decide, rfl, hnext⟩, by decide⟩
  have hd : [2].Disjoint (freeClusters smallVolume emptyDisk) := by
    rw [List.singleton_disjoint, mem_freeClusters]
    exact fun h => absurd (hnext.symm.trans h.2) (by decide)
  have hf : ∀ c ∈ freeClusters smallVolume emptyDisk, c < 0xfff0 :=
    fun c hm => (mem_freeClusters.mp hm).1.trans (by decide)
  exact writeToFile_splice smallVolume_layout.geometry hc hd (by decide) (by decide +kernel)
    (by decide +kernel) hf (fun _ => 0x58) (by decide)

end Writing

/-- The state after `k` bytes were read from the file `fd`. -/
def advance (s : State) (fd : Int) (k : Nat) : State :=
  { s with openFiles :=
      updateOpenFile fd (fun f => { f with offset := (f.offset + k) % 2 ^ 32 }) s.openFiles }

/-- One `sys_read` after the other, each into a buffer of its own: the return values, the bytes
that were asked for, and the state. -/
def readChunks (fs : Fat16) (fd : Int) : List (Buffer × Nat) → State →
    List Int × List UInt8 × State
  | [], s => ([], [], s)
  | (buf, nbytes) :: reads, s =>
    let (r, buf, s) := sysRead fs s fd buf nbytes
    let (rs, bytes, s) := readChunks fs fd reads s
    (r :: rs, bytesOf buf nbytes ++ bytes, s)

/-- The number of bytes that the reads ask for. -/
def totalBytes (reads : List (Buffer × Nat)) : Nat := (reads.map Prod.snd).sum

section Reading
variable {fs : Fat16} {s : State} {fd : Int} {f : OpenFile} {l : List Nat} {e : Nat}

theorem findOpenFileByFd_advance (hf : findOpenFileByFd s fd = some f) (k : Nat) :
    findOpenFileByFd (advance s fd k) fd = some { f with offset := (f.offset + k) % 2 ^ 32 } :=
  find?_updateOpenFile hf (findOpenFileByFd_mem hf).2

theorem advance_advance (s : State) (fd : Int) (a b : Nat) :
    advance (advance s fd a) fd b = advance s fd (a + b) := by
  have hfiles (files : List OpenFile) :
      updateOpenFile fd (fun f => { f with offset := (f.offset + b) % 2 ^ 32 })
        (updateOpenFile fd (fun f => { f with offset := (f.offset + a) % 2 ^ 32 }) files) =
      updateOpenFile fd (fun f => { f with offset := (f.offset + (a + b)) % 2 ^ 32 }) files := by
    induction files with
    | nil => rfl
    | cons f files ih =>
      by_cases h : f.fd = fd
      · simp [updateOpenFile, h, Nat.add_assoc]
      · simpa [updateOpenFile, h] using ih
  simp only [advance, hfiles]

theorem bytesOf_add (x : Buffer) (m n : Nat) :
    bytesOf x (m + n) = bytesOf x m ++ bytesOf (fun k => x (m + k)) n := by
  simp only [bytesOf, List.range_add, List.map_append, List.map_map]
  rfl

theorem bytesOf_readBuffer (fs : Fat16) (d : Disk) (l : List Nat) (o n : Nat) (buf : Buffer) :
    bytesOf (readBuffer fs d l o n buf) n = bytesOf (fun k => chainByte fs d l (o + k)) n :=
  bytesOf_congr fun _ hk => if_pos hk

variable (hf : findOpenFileByFd s fd = some f) (hfd : fd ≠ stdinFiledesc)
  (hw : Walk fs s.disk f.directoryEntry.firstCluster l e)
include hf hfd hw

/-- `sys_read` at an offset inside the chain. -/
theorem sysRead_inside (ho : f.offset < l.length * bytesPerCluster fs) (buf : Buffer)
    {nbytes k : Nat} (hk : k = min nbytes (l.length * bytesPerCluster fs -
      narrowOffset fs f.offset)) :
    sysRead fs s fd buf nbytes =
      if toInt32 k < 0 then (-1, readBuffer fs s.disk l (narrowOffset fs f.offset) k buf, s)
      else ((k : Int), readBuffer fs s.disk l (narrowOffset fs f.offset) k buf,
        advance s fd k) := by
  have hfirst : ¬ f.directoryEntry.firstCluster < 2 := by
    cases l with
    | nil => simp at ho
    | cons a l =>
      have := (hw.start rfl).1
      omega
  simp only [sysRead, if_neg hfd, hf, if_neg hfirst, readFromFile_narrowed hw ho, ← hk]
  rfl

/-- `sys_read` of bytes that the chain has. -/
theorem sysRead_within (hsize : bytesPerCluster fs ≤ 2 ^ 16) (buf : Buffer) {nbytes : Nat}
    (hpos : 1 ≤ nbytes) (hle : f.offset + nbytes ≤ l.length * bytesPerCluster fs)
    (hsmall : nbytes < 2 ^ 31) :
    sysRead fs s fd buf nbytes =
      ((nbytes : Int), readBuffer fs s.disk l f.offset nbytes buf, advance s fd nbytes) := by
  have ho : f.offset < l.length * bytesPerCluster fs := by omega
  have hnarrow := narrowOffset_eq hw ho hsize
  rw [sysRead_inside hf hfd hw ho buf (k := nbytes) (by omega), hnarrow,
    if_neg (toInt32_nonneg hsmall)]

theorem readChunks_advance (hsize : bytesPerCluster fs ≤ 2 ^ 16)
    (hcap : l.length * bytesPerCluster fs < 2 ^ 31) (read : Buffer × Nat)
    (reads : List (Buffer × Nat)) (hpos : ∀ r ∈ read :: reads, 1 ≤ r.2)
    (hle : f.offset + totalBytes (read :: reads) ≤ l.length * bytesPerCluster fs) :
    readChunks fs fd (read :: reads) s = ((read :: reads).map (fun r => (r.2 : Int)),
      bytesOf (fun k => chainByte fs s.disk l (f.offset + k)) (totalBytes (read :: reads)),
      advance s fd (totalBytes (read :: reads))) := by
  induction reads generalizing s f read with
  | nil =>
    simp only [totalBytes, List.map_cons, List.map_nil, List.sum_cons, List.sum_nil,
      Nat.add_zero] at hle ⊢
    have hone := sysRead_within hf hfd hw hsize read.1 (hpos read (by simp)) hle (by omega)
    simp only [readChunks, hone, bytesOf_readBuffer, List.append_nil]
  | cons next reads ih =>
    have htotal : totalBytes (read :: next :: reads) = read.2 + totalBytes (next :: reads) := by
      simp [totalBytes]
    rw [htotal] at hle ⊢
    have hone := sysRead_within hf hfd hw hsize read.1 (hpos read (by simp)) (by omega) (by omega)
    have hoff : (f.offset + read.2) % 2 ^ 32 = f.offset + read.2 := Nat.mod_eq_of_lt (by omega)
    have hf' := findOpenFileByFd_advance hf read.2
    rw [hoff] at hf'
    have hrest := ih hf' hw next (fun r hr => hpos r (List.mem_cons_of_mem _ hr))
      (by simp only; omega)
    rw [readChunks]
    simp only [hone, hrest, bytesOf_readBuffer, advance_advance]
    rw [bytesOf_add]
    simp only [Nat.add_assoc]
    rfl

/-- Reading does not depend on how it is cut into calls: each call returns what it was asked for,
the buffers together are the bytes of the chain from the offset on, the offset moves by the total,
and the disk stays. A single call for all the bytes does the same. -/
theorem readChunks_eq (hsize : bytesPerCluster fs ≤ 2 ^ 16)
    (hcap : l.length * bytesPerCluster fs < 2 ^ 31) (reads : List (Buffer × Nat))
    (hpos : ∀ r ∈ reads, 1 ≤ r.2)
    (hle : f.offset + totalBytes reads ≤ l.length * bytesPerCluster fs) :
    ∃ t, readChunks fs fd reads s = (reads.map (fun r => (r.2 : Int)),
        bytesOf (fun k => chainByte fs s.disk l (f.offset + k)) (totalBytes reads), t) ∧
      findOpenFileByFd t fd = some { f with offset := f.offset + totalBytes reads } ∧
      t.disk = s.disk ∧
      (reads ≠ [] → ∀ buf, ∃ buf', sysRead fs s fd buf (totalBytes reads) =
          ((totalBytes reads : Int), buf', t) ∧
        bytesOf buf' (totalBytes reads) = (readChunks fs fd reads s).2.1) := by
  cases reads with
  | nil => exact ⟨s, rfl, hf, rfl, fun h => absurd rfl h⟩
  | cons read reads =>
    have hall := readChunks_advance hf hfd hw hsize hcap read reads hpos hle
    have hfound := findOpenFileByFd_advance hf (totalBytes (read :: reads))
    rw [Nat.mod_eq_of_lt (by omega)] at hfound
    refine ⟨_, hall, hfound, rfl, fun _ buf => ?_⟩
    have hone : 1 ≤ totalBytes (read :: reads) := by
      have := hpos read (by simp)
      simp only [totalBytes, List.map_cons, List.sum_cons]
      omega
    refine ⟨_, sysRead_within hf hfd hw hsize buf hone hle (by omega), ?_⟩
    rw [hall, bytesOf_readBuffer]

end Reading

/-- `sys_read` returns the number of bytes that the file still has behind the offset, at most
`nbytes`, and only these bytes come into the buffer. -/
def RespectsEnd (fs : Fat16) (s : State) (fd : Int) (f : OpenFile) (l : List Nat) (buf : Buffer)
    (nbytes : Nat) : Prop :=
  (sysRead fs s fd buf nbytes).1 = (min nbytes (f.directoryEntry.fileSizeBytes - f.offset) : Nat) ∧
    (sysRead fs s fd buf nbytes).2.1 = readBuffer fs s.disk l f.offset
      (min nbytes (f.directoryEntry.fileSizeBytes - f.offset)) buf

/-- There is nothing to read, or the file has all the bytes, or it fills its chain and the offset
is inside. What is read fits into an `int32_t`, and the offset that is narrowed to 16 bits in the
cluster leads to the same bytes, as it does where a cluster has at most 65536. -/
def EndsWithRead (fs : Fat16) (d : Disk) (f : OpenFile) (l : List Nat) (nbytes : Nat) : Prop :=
  2 ≤ f.directoryEntry.firstCluster ∧
    (nbytes = 0 ∨
      (f.offset + nbytes ≤ f.directoryEntry.fileSizeBytes ∧ nbytes < 2 ^ 31 ∧
        ∀ x < nbytes, chainByte fs d l (narrowOffset fs f.offset + x) =
          chainByte fs d l (f.offset + x)) ∨
      (f.directoryEntry.fileSizeBytes = l.length * bytesPerCluster fs ∧
        f.offset < f.directoryEntry.fileSizeBytes ∧ narrowOffset fs f.offset = f.offset ∧
        min nbytes (f.directoryEntry.fileSizeBytes - f.offset) < 2 ^ 31))

section End
variable {fs : Fat16} {s : State} {fd : Int} {f : OpenFile} {l : List Nat} {e : Nat}

theorem narrowOffset_le (hw : Walk fs s.disk f.directoryEntry.firstCluster l e)
    (ho : f.offset < l.length * bytesPerCluster fs) : narrowOffset fs f.offset ≤ f.offset := by
  have hdm := Nat.div_add_mod f.offset (bytesPerCluster fs)
  have hmod := Nat.mod_le (f.offset % bytesPerCluster fs) (2 ^ 16)
  rw [narrowOffset, (hw.dataStartsInCluster_eq ho).2, dataOffsetInCluster_eq, Nat.mul_comm]
  omega

theorem readBuffer_congr {d : Disk} {o o' k : Nat} {buf : Buffer} :
    readBuffer fs d l o' k buf = readBuffer fs d l o k buf ↔
      ∀ x < k, chainByte fs d l (o' + x) = chainByte fs d l (o + x) := by
  constructor
  · intro h x hx
    simpa [readBuffer, hx] using congrFun h x
  · intro h
    funext x
    by_cases hx : x < k
    · simp [readBuffer, hx, h x hx]
    · simp [readBuffer, hx]

variable (hf : findOpenFileByFd s fd = some f) (hfd : fd ≠ stdinFiledesc)
include hf hfd

variable (fs) in
/-- Of bytes that are asked for one is read at least, or the call fails. -/
theorem sysRead_ne_zero (buf : Buffer) {nbytes : Nat} (hpos : 1 ≤ nbytes) :
    (sysRead fs s fd buf nbytes).1 ≠ 0 := by
  have hread := readFromFile_pos fs s.disk f.directoryEntry.firstCluster f.offset buf hpos
  simp only [sysRead, if_neg hfd, hf]
  split_ifs
  · simp
  · simp
  · simp only [ne_eq, Int.natCast_eq_zero]
    omega

variable (fs) in
theorem sysRead_nothing (h2 : 2 ≤ f.directoryEntry.firstCluster) (buf : Buffer) :
    (sysRead fs s fd buf 0).1 = 0 ∧ (sysRead fs s fd buf 0).2.1 = buf := by
  simp only [sysRead, if_neg hfd, hf, if_neg (Nat.not_lt.mpr h2), readFromFile_nothing]
  simp [toInt32]

variable (hw : Walk fs s.disk f.directoryEntry.firstCluster l e)
include hw

/-- Inside the chain it is the chain that ends a read. -/
theorem respectsEnd_inside (ho : f.offset < l.length * bytesPerCluster fs) (buf : Buffer)
    {nbytes k : Nat} (hnbytes : nbytes < 2 ^ 32)
    (hk : k = min nbytes (l.length * bytesPerCluster fs - narrowOffset fs f.offset)) :
    RespectsEnd fs s fd f l buf nbytes ↔ k < 2 ^ 31 ∧
      k = min nbytes (f.directoryEntry.fileSizeBytes - f.offset) ∧
      ∀ x < k, chainByte fs s.disk l (narrowOffset fs f.offset + x) =
        chainByte fs s.disk l (f.offset + x) := by
  have hres := sysRead_inside hf hfd hw ho buf hk
  have hneg : toInt32 k < 0 ↔ 2 ^ 31 ≤ k := toInt32_neg_iff (by omega)
  rw [RespectsEnd, hres]
  by_cases hlarge : toInt32 k < 0
  · rw [if_pos hlarge]
    refine iff_of_false (fun h => ?_) fun h => absurd (hneg.mp hlarge) (Nat.not_le.mpr h.1)
    have := h.1
    simp only at this
    omega
  · rw [if_neg hlarge]
    simp only [Int.natCast_inj, Nat.not_le.mp (mt hneg.mpr hlarge), true_and]
    constructor
    · intro ⟨heq, hbuf⟩
      rw [← heq] at hbuf
      exact ⟨heq, readBuffer_congr.mp hbuf⟩
    · intro ⟨heq, hbytes⟩
      rw [← heq]
      exact ⟨rfl, readBuffer_congr.mpr hbytes⟩

/-- `sys_read` stops at the end of the file exactly where it has no choice: it never looks at the
size. -/
theorem respectsEnd_iff
    (hsize : f.directoryEntry.fileSizeBytes ≤ l.length * bytesPerCluster fs) (buf : Buffer)
    {nbytes : Nat} (hnbytes : nbytes < 2 ^ 32) :
    RespectsEnd fs s fd f l buf nbytes ↔ EndsWithRead fs s.disk f l nbytes := by
  by_cases h2 : 2 ≤ f.directoryEntry.firstCluster
  · rw [EndsWithRead, and_iff_right h2]
    obtain rfl | hpos := Nat.eq_zero_or_pos nbytes
    · obtain ⟨hret, hbuf⟩ := sysRead_nothing fs hf hfd h2 buf
      refine iff_of_true ⟨?_, ?_⟩ (Or.inl rfl)
      · simp [hret]
      · rw [hbuf, Nat.zero_min]
        funext x
        exact (if_neg (by omega)).symm
    · by_cases ho : f.offset < l.length * bytesPerCluster fs
      · have hle := narrowOffset_le hw ho
        rw [respectsEnd_inside hf hfd hw ho buf hnbytes rfl]
        constructor
        · intro ⟨hsmall, heq, hbytes⟩
          by_cases hn : f.offset + nbytes ≤ f.directoryEntry.fileSizeBytes
          · have hall : min nbytes (l.length * bytesPerCluster fs - narrowOffset fs f.offset) =
                nbytes := by omega
            rw [hall] at hsmall hbytes
            exact Or.inr (Or.inl ⟨hn, hsmall, hbytes⟩)
          · exact Or.inr (Or.inr ⟨by omega, by omega, by omega, by omega⟩)
        · rintro (h | ⟨hn, hsmall, hbytes⟩ | ⟨hfull, hin, hsame, hsmall⟩)
          · omega
          · have hall : min nbytes (l.length * bytesPerCluster fs - narrowOffset fs f.offset) =
                nbytes := by omega
            rw [hall]
            exact ⟨hsmall, by omega, hbytes⟩
          · rw [hsame, ← hfull]
            exact ⟨hsmall, rfl, fun _ _ => rfl⟩
      · -- at the end of the chain and behind it there is nothing to read, and yet bytes are read
        refine iff_of_false (fun h => sysRead_ne_zero fs hf hfd buf hpos ?_) ?_
        · rw [h.1]
          simp only [Int.natCast_eq_zero]
          omega
        · omega
  · refine iff_of_false (fun h => ?_) fun h => h2 h.1
    have hret : (sysRead fs s fd buf nbytes).1 = -1 := by
      simp only [sysRead, if_neg hfd, hf, if_pos (Nat.not_le.mp h2)]
    have := h.1
    omega

end End

section Examples

/-- The file `/AA.TXT` was opened. -/
def filledOpen : State := ⟨filledDisk, [⟨3, filledFile.entry, filledPath, 0, false⟩], 4, []⟩

theorem filledOpen_walk : Walk smallVolume filledDisk 3 [3] 0xffff := by
  have hnext : getSuccessorCluster smallVolume filledDisk 3 = 0xffff := by decide +kernel
  exact ⟨by decide, by decide, rfl, hnext⟩

/-- Twenty bytes and the other twelve. -/
theorem filledFile_readChunks : ∃ t, readChunks smallVolume 3 [(zeroBuffer, 20), (zeroBuffer, 12)]
      filledOpen = ([20, 12], bytesOf (fun k => chainByte smallVolume filledDisk [3] (0 + k)) 32, t) ∧
      findOpenFileByFd t 3 = some ⟨3, filledFile.entry, filledPath, 32, false⟩ ∧
      t.disk = filledDisk ∧
      ([(zeroBuffer, 20), (zeroBuffer, 12)] ≠ [] → ∀ buf, ∃ buf', sysRead smallVolume filledOpen 3
          buf 32 = (32, buf', t) ∧
        bytesOf buf' 32 =
          (readChunks smallVolume 3 [(zeroBuffer, 20), (zeroBuffer, 12)] filledOpen).2.1) :=
  readChunks_eq (s := filledOpen) (f := ⟨3, filledFile.entry, filledPath, 0, false⟩) rfl
    (by decide) filledOpen_walk (by decide) (by decide)
    [(zeroBuffer, 20), (zeroBuffer, 12)] (by simp) (by decide)

/-- The file fills its cluster. -/
theorem filledFile_respectsEnd : RespectsEnd smallVolume filledOpen 3
    ⟨3, filledFile.entry, filledPath, 0, false⟩ [3] zeroBuffer 100 :=
  (respectsEnd_iff (s := filledOpen) (f := ⟨3, filledFile.entry, filledPath, 0, false⟩) rfl
    (by decide) filledOpen_walk (by decide) zeroBuffer (by decide)).mpr
      ⟨by decide, Or.inr (Or.inr ⟨by decide, by decide, by decide, by decide⟩)⟩

/-- The file `AA.TXT` has five bytes. -/
def fiveBytesDisk : Disk := diskOf
  [[], [0xf8, 0xff, 0xff, 0xff, 0xff, 0xff, 0xff, 0xff],
    slotOf 0x41 0x41 0x54 0x58 0x54 0x00 3 5]

/-- A read of ten bytes returns ten, of which five are behind the end of the file. -/
theorem read_passes_end : ∃ s f,
    sysOpen smallVolume (fileInitialise fiveBytesDisk) filledPath 0 = some (3, s) ∧
    findOpenFileByFd s 3 = some f ∧ ¬ isSubdirectory f.directoryEntry.attributes ∧
    Walk smallVolume s.disk f.directoryEntry.firstCluster [3] 0xffff ∧
    f.directoryEntry.fileSizeBytes = 5 ∧ f.offset = 0 ∧
    (sysRead smallVolume s 3 zeroBuffer 10).1 = 10 ∧
    ¬ RespectsEnd smallVolume s 3 f [3] zeroBuffer 10 := by
  have hres : (sysOpen smallVolume (fileInitialise fiveBytesDisk) filledPath 0).map (fun r =>
      (r.1, findOpenFileByFd r.2 3, getSuccessorCluster smallVolume r.2.disk 3,
        (sysRead smallVolume r.2 3 zeroBuffer 10).1)) =
      some (3, some ⟨3, ⟨[0x41, 0x41, 0, 0, 0, 0, 0, 0, 0], [0x54, 0x58, 0x54, 0], 0x00, 3, 5⟩,
        filledPath, 0, false⟩, 0xffff, 10) := by decide +kernel
  obtain ⟨⟨r, s⟩, hopen, he⟩ := Option.map_eq_some_iff.mp hres
  simp only [Prod.mk.injEq] at he
  obtain ⟨rfl, hf, hnext, hread⟩ := he
  refine ⟨s, _, hopen, hf, by decide, ⟨by decide, by decide, rfl, hnext⟩, rfl, rfl, hread,
    fun h => ?_⟩
  have := hread.symm.trans h.1
  exact absurd this (by decide)

end Examples
end MalapropOS.Fat
