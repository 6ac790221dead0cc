import MalapropOS.Fat.OpenFiles
import MalapropOS.Fat.ReadFile
import MalapropOS.Fat.WriteFrame

/-! A file opened with `O_APPEND`, to which chunks are written one after the other: what is read
back from its start. -/
namespace MalapropOS.Fat
open LinkedChain PartialMachine

/-- The bytes of a chunk, seen from a pointer to them. -/
def bufferOf (chunk : List UInt8) : Buffer := fun k => chunk.getD k 0

def bytesOf (buf : Buffer) (n : Nat) : List UInt8 := (List.range n).map buf

/-- The data of a file of that size, in the clusters `l`. -/
def contents (fs : Fat16) (d : Disk) (l : List Nat) (size : Nat) : List UInt8 :=
  bytesOf (chainByte fs d l) size

/-- One `sys_write` for each chunk; the return values and the state. -/
def writeChunks (fs : Fat16) (fd : Int) : List (List UInt8) → State → Option (List Int × State)
  | [], s => some ([], s)
  | chunk :: chunks, s => do
    let (r, s) ← sysWrite fs s fd (bufferOf chunk) chunk.length
    let (rs, s) ← writeChunks fs fd chunks s
    return (r :: rs, s)

/-- No chunk starts, from the offset on, at the end of a cluster and behind the first `capacity`
bytes: this is the end of the chain. -/
def StartsInside (fs : Fat16) (capacity : Nat) : Nat → List (List UInt8) → Prop
  | _, [] => True
  | offset, chunk :: chunks => ¬ (bytesPerCluster fs ∣ offset ∧ capacity ≤ offset) ∧
      StartsInside fs capacity (offset + chunk.length) chunks

/-- The slot that gets the new size is not in the data of the file. -/
def SlotApart (fs : Fat16) (d : Disk) (f : OpenFile) : Prop :=
  ∀ q l, updateSlot fs d f.path f.directoryEntry.filename f.directoryEntry.extension =
    some (some q) → FileChain fs d f.directoryEntry.firstCluster l → q.sector ∉ chainSectors fs l

/-- This holds for each chunk, once its data is on the disk. -/
def SlotsApart (fs : Fat16) (fd : Int) : List (List UInt8) → State → Prop
  | [], _ => True
  | chunk :: chunks, s =>
    (∀ f, findOpenFileByFd s fd = some f →
      SlotApart fs (writeToFile fs s.disk f.directoryEntry.firstCluster
        f.directoryEntry.fileSizeBytes (bufferOf chunk) chunk.length).1 f) ∧
    ∀ r t, sysWrite fs s fd (bufferOf chunk) chunk.length = some (r, t) → SlotsApart fs fd chunks t

/-- The directories have chains, which do not meet the clusters `l`. -/
structure DirsApart (fs : Fat16) (d : Disk) (l : List Nat) : Prop where
  valid : DirsValid (used fs) d
  apart : ∀ p m, Reach (used fs) d p → isSubdirectory (slotEntry d p).attributes →
    FileChain fs d (slotEntry d p).firstCluster m → m.Disjoint l

/-- The file is open for appending, and its clusters `l` are its own. -/
structure Appendable (fs : Fat16) (s : State) (fd : Int) (f : OpenFile) (l : List Nat) : Prop where
  found : findOpenFileByFd s fd = some f
  append : f.append = true
  regular : ¬ isSubdirectory f.directoryEntry.attributes
  chain : FileChain fs s.disk f.directoryEntry.firstCluster l
  fits : f.directoryEntry.fileSizeBytes ≤ l.length * bytesPerCluster fs
  dirs : DirsApart fs s.disk l

/-- The record of the file, with `n` bytes more. -/
def appended (f : OpenFile) (n : Nat) : OpenFile := { f with
  directoryEntry := { f.directoryEntry with fileSizeBytes := f.directoryEntry.fileSizeBytes + n }
  offset := f.directoryEntry.fileSizeBytes + n }

/-- The file in the clusters `l` is on `d'` as it is on `d`. -/
structure FileKept (fs : Fat16) (d d' : Disk) (c : Nat) (l : List Nat) : Prop where
  chain : FileChain fs d' c l
  free : freeClusters fs d' = freeClusters fs d
  dirs : DirsApart fs d' l
  data : ∀ x < l.length * bytesPerCluster fs, chainByte fs d' l x = chainByte fs d l x

section Bytes
variable {fs : Fat16} {d : Disk} {l : List Nat}

theorem bytesOf_congr {x y : Buffer} {n : Nat} (h : ∀ k < n, x k = y k) :
    bytesOf x n = bytesOf y n :=
  List.map_congr_left fun k hk => h k (List.mem_range.mp hk)

/-- A buffer that goes on with a chunk. -/
theorem bytesOf_append {x y : Buffer} {n : Nat} {chunk : List UInt8} (hx : ∀ k < n, y k = x k)
    (hc : ∀ k < chunk.length, y (n + k) = bufferOf chunk k) :
    bytesOf y (n + chunk.length) = bytesOf x n ++ chunk := by
  have hchunk : (List.range chunk.length).map (bufferOf chunk) = chunk := by
    refine List.ext_getElem (by simp) fun k h₁ h₂ => ?_
    simp [bufferOf, h₂]
  rw [bytesOf, List.range_add, List.map_append, List.map_map]
  congr 1
  · exact bytesOf_congr hx
  · exact (List.map_congr_left fun k hk => hc k (List.mem_range.mp hk)).trans hchunk

theorem chainByte_mem {x : Nat} (hx : x < l.length * bytesPerCluster fs) :
    l.getD (x / bytesPerCluster fs) 0 ∈ l := by
  have hlt : x / bytesPerCluster fs < l.length :=
    (Nat.div_lt_iff_lt_mul (bytesPerCluster_pos fs)).mpr hx
  rw [List.getD_eq_getElem _ _ hlt]
  exact List.getElem_mem hlt

/-- Storing an entry outside of the clusters leaves their data alone. -/
theorem chainByte_writeSlot (hl : Layout fs) {q : Slot} {e : DirEntry} {first : UInt8}
    (hin : ∀ a ∈ l, 2 ≤ a ∧ a < numEntries fs) (hq : q.sector ∉ chainSectors fs l) {x : Nat}
    (hx : x < l.length * bytesPerCluster fs) :
    chainByte fs (writeSlot d q e first) l x = chainByte fs d l x := by
  have hm := chainByte_mem hx
  obtain ⟨h2, hlt⟩ := hin _ hm
  rw [chainByte, chainByte, loadCluster_congr h2 (hl.lt_of_entry hlt) fun s k hb => ?_]
  by_contra hne
  obtain ⟨rfl, -⟩ := writeSlot_frame hne
  exact hq (mem_chainSectors.mpr ⟨_, hm, hb.1, hb.2.1⟩)

theorem chainByte_append (new : List Nat) {x : Nat} (hx : x < l.length * bytesPerCluster fs) :
    chainByte fs d (l ++ new) x = chainByte fs d l x := by
  have hlt : x / bytesPerCluster fs < l.length :=
    (Nat.div_lt_iff_lt_mul (bytesPerCluster_pos fs)).mpr hx
  rw [chainByte, chainByte, List.getD_append _ _ _ _ hlt]

end Bytes

section Dirs
variable {fs : Fat16} (hl : DirLayout fs) {d d' : Disk} {l new : List Nat} {c o n : Nat}
  {buf : Buffer}
include hl

theorem DirsApart.written (h : DirsApart fs d l) (hc : FileChain fs d c l)
    (hw : Written fs d c l o buf n d' new) : DirsApart fs d' (l ++ new) := by
  have hsame : SameDirs (used fs) d d' := .of_written hl hc hw h.apart
  refine ⟨hsame.valid hl.toLayout h.valid, fun p m hp hs hm => ?_⟩
  obtain ⟨hp, he⟩ := hsame.reach hl.toLayout h.valid hp
  rw [he] at hs hm
  obtain ⟨m', hm'⟩ := h.valid p hp hs
  obtain rfl := hm.unique hl.toLayout (hm'.congr (hsame.links p m' hp hs hm'))
  intro a ha hb
  cases List.mem_append.mp hb with
  | inl hb => exact h.apart p m hp hs hm' ha hb
  | inr hb => exact hm'.successor_ne_zero a ha (hw.new_inTable a hb).2.2

/-- The entry of a regular file may go to any slot. -/
theorem DirsApart.store (h : DirsApart fs d l) {q : Slot} (hq : IsSlot fs q) {e : DirEntry}
    {first : UInt8} (hs : ¬ isSubdirectory e.attributes) (hc : e.firstCluster < 2 ^ 16) :
    DirsApart fs (writeSlot d q e first) l := by
  have hreach : ∀ p, Reach (used fs) (writeSlot d q e first) p →
      isSubdirectory (slotEntry (writeSlot d q e first) p).attributes →
      Reach (used fs) d p ∧ slotEntry (writeSlot d q e first) p = slotEntry d p := by
    intro p hp hsub
    obtain ⟨-, hp⟩ | ⟨rfl, -⟩ := hp.of_writeSlot hl hq hc (fun ss hss => used_writeSlot hl hq hss)
      fun _ hsub => absurd hsub hs
    · exact hp
    · rw [slotEntry_writeSlot_attributes] at hsub
      exact absurd hsub hs
  constructor
  · intro p hp hsub
    obtain ⟨hp, he⟩ := hreach p hp hsub
    obtain ⟨m, hm⟩ := h.valid p hp (he ▸ hsub)
    exact ⟨m, he ▸ (FileChain.writeSlot_iff hl.toLayout hq).mpr hm⟩
  · intro p m hp hsub hm
    obtain ⟨hp, he⟩ := hreach p hp hsub
    rw [he] at hsub hm
    exact h.apart p m hp hsub ((FileChain.writeSlot_iff hl.toLayout hq).mp hm)

/-- The entry of a regular file may go to any slot outside of its clusters. -/
theorem FileKept.store (hc : FileChain fs d c l) (h : DirsApart fs d l) {q : Slot}
    (hq : IsSlot fs q) {e : DirEntry} {first : UInt8} (hs : ¬ isSubdirectory e.attributes)
    (he : e.firstCluster = c) (hout : q.sector ∉ chainSectors fs l) :
    FileKept fs d (writeSlot d q e first) c l where
  chain := (FileChain.writeSlot_iff hl.toLayout hq).mpr hc
  free := freeClusters_congr fun _ ha => getSuccessorCluster_writeSlot hl.toLayout hq ha
  dirs := h.store hl hq hs (he ▸ hl.lt_of_entry (hc.inTable c hc.start_mem).2)
  data _ hx := chainByte_writeSlot hl.toLayout hc.inTable hout hx

end Dirs

section Records

theorem find?_updateOpenFile {files : List OpenFile} {fd : Int} {f : OpenFile}
    (h : files.find? (fun f => f.fd = fd) = some f) {g : OpenFile → OpenFile} (hg : (g f).fd = fd) :
    (updateOpenFile fd g files).find? (fun f => f.fd = fd) = some (g f) := by
  induction files with
  | nil => cases h
  | cons a files ih =>
    by_cases ha : a.fd = fd
    · obtain rfl : a = f := by simpa [ha] using h
      simp [updateOpenFile, ha, hg]
    · simpa [updateOpenFile, ha] using ih (by simpa [ha] using h)

end Records

section Opening
variable {fs : Fat16} {s t : State}

theorem find?_updateOpenFile_inv {files : List OpenFile} {fd : Int} {f : OpenFile}
    {g : OpenFile → OpenFile} (hg : ∀ f, (g f).fd = f.fd)
    (h : (updateOpenFile fd g files).find? (fun f => f.fd = fd) = some f) : ∃ f₀, f = g f₀ := by
  induction files with
  | nil => cases h
  | cons a files ih =>
    by_cases ha : a.fd = fd
    · have he : g a = f := by simpa [updateOpenFile, ha, hg a] using h
      exact ⟨a, he.symm⟩
    · exact ih (by simpa [updateOpenFile, ha] using h)

theorem finishOpen_append {f g : OpenFile} {flags : Nat} {fd : Int}
    (h : finishOpen s f flags = (fd, t)) (hf : findOpenFileByFd t fd = some g)
    (hflag : flags &&& oAppend ≠ 0) : g.append = true := by
  obtain ⟨rfl, rfl⟩ := Prod.mk.inj h
  obtain ⟨f₀, rfl⟩ := find?_updateOpenFile_inv
    (g := fun f => { f with append := decide (flags &&& oAppend ≠ 0) }) (fun _ => rfl) hf
  exact decide_eq_true hflag

/-- A record that `sys_open` returns has the flag. -/
theorem sysOpen_append {pathname : CharPtr} {flags : Nat} {fd : Int} {f : OpenFile}
    (h : sysOpen fs s pathname flags = some (fd, t)) (h₀ : 0 ≤ fd)
    (hf : findOpenFileByFd t fd = some f) (hflag : flags &&& oAppend ≠ 0) : f.append = true := by
  have hmade : ∀ {s₁ : State} {g : OpenFile}, fd = g.fd → t = (finishOpen s₁ g flags).2 →
      f.append = true := fun hfd ht => finishOpen_append (Prod.ext hfd.symm ht.symm) hf hflag
  cases sysOpen_effect h with
  | known => exact hmade rfl rfl
  | opened => exact hmade rfl rfl
  | missing => exact absurd h₀ (by decide)
  | failed => exact absurd h₀ (by decide)
  | made => exact hmade rfl rfl

end Opening

section End
variable {fs : Fat16} (hl : DirLayout fs) {d : Disk} {c : Nat} {l : List Nat}
include hl

/-- Behind the last cluster the walk comes to the end mark. -/
theorem walkChain_end (hc : FileChain fs d c l) :
    0xfff8 ≤ walkChain fs d l.length c ∧ walkChain fs d l.length c < 2 ^ 16 := by
  obtain ⟨e, he, hp⟩ := hc.ends
  have hin := fun a ha => hc.inChain hl.toLayout (a := a) ha
  have hne := hc.nonempty
  clear hc
  induction l generalizing c with
  | nil => exact absurd rfl hne
  | cons a l ih =>
    obtain ⟨rfl, hp⟩ := hp
    rw [List.length_cons, walkChain, if_pos (hin a (by simp))]
    cases l with
    | nil =>
      have hlast : getSuccessorCluster fs d a = e := hp
      exact ⟨hlast ▸ he, getSuccessorCluster_lt d hl.even a⟩
    | cons b l => exact ih hp (fun x hx => hin x (by simp [hx])) (by simp)

/-- A write of at most a cluster that starts at the end of the chain goes to the end mark. -/
theorem writeToFile_end (hc : FileChain fs d c l) (buf : Buffer) {num : Nat}
    (hnum : num ≤ bytesPerCluster fs) : ∃ e, 0xfff8 ≤ e ∧ e < 2 ^ 16 ∧
      writeToFile fs d c (l.length * bytesPerCluster fs) buf num =
        (writePart fs d e 0 buf 0 num, num) := by
  have hb := bytesPerCluster_pos fs
  have hlen := hc.length_lt hl.toLayout
  have hsize := hl.clusterSize
  have hstarts : dataStartsInCluster fs (l.length * bytesPerCluster fs) = l.length := by
    rw [dataStartsInCluster, Nat.mul_div_cancel _ hb, Nat.mod_eq_of_lt hlen]
  have hoff : dataOffsetInCluster fs (l.length * bytesPerCluster fs) = 0 := by
    rw [dataOffsetInCluster, hstarts, Nat.sub_self, Nat.zero_mod]
  have hfirst : numBytesInFirstCluster fs (l.length * bytesPerCluster fs) num = num := by
    rw [numBytesInFirstCluster, hoff]
    omega
  have hstop : ∀ fuel w, w.numBytesWritten = num → writeClusters fs buf num fuel w = w := by
    intro fuel w hw
    cases fuel with
    | zero => rfl
    | succ fuel => rw [writeClusters, if_neg (by omega)]
  have hstop' : ∀ fuel w, w.numBytesWritten = num → growClusters fs buf num fuel w = w := by
    intro fuel w hw
    cases fuel with
    | zero => rfl
    | succ fuel => rw [growClusters, if_neg (by omega)]
  obtain ⟨he, he'⟩ := walkChain_end hl hc
  refine ⟨_, he, he', ?_⟩
  simp only [writeToFile, hstarts, hoff, hfirst]
  rw [hstop _ _ rfl, hstop' _ _ rfl]

/-- What is written to an end mark is in no file and no directory. -/
theorem DirsApart.outside (h : DirsApart fs d l) {e n : Nat} (he : 0xfff8 ≤ e) (he' : e < 2 ^ 16)
    (buf : Buffer) : DirsValid (used fs) (writePart fs d e 0 buf 0 n) := by
  have hent := hl.entries
  have hsame : SameDirs (used fs) d (writePart fs d e 0 buf 0 n) := by
    constructor
    · intro ss hss s hs k hk
      by_contra hne
      have hbyte := writeCluster_frame d (by omega) he' hne
      obtain ⟨p, m, hp, hsub, hm, ha⟩ := hss.dataByte hl hs (by omega) hbyte
      have := (hm.inTable e ha).2
      omega
    · exact fun p m _ _ hm a ha =>
        getSuccessor_writePart hl.geometry (hm.inTable a ha).2 (by omega) he' buf
  exact hsame.valid hl.toLayout h.valid

end End

section Writes
variable {fs : Fat16} (hl : DirLayout fs) {s : State} {fd : Int} {f : OpenFile} {l : List Nat}
include hl

/-- The free clusters are enough for all bytes. -/
theorem writeToFile_all {d : Disk} {c o : Nat} (hc : FileChain fs d c l)
    (ho : o < l.length * bytesPerCluster fs) (h2 : ∀ a ∈ freeClusters fs d, 2 ≤ a) (buf : Buffer)
    {num : Nat} (hroom : o + num ≤ (l.length + (freeClusters fs d).length) * bytesPerCluster fs) :
    ∃ d' new, writeToFile fs d c o buf num = (d', num) ∧ Written fs d c l o buf num d' new := by
  obtain ⟨e, he, hchain⟩ := hc.chain hl.toLayout
  obtain ⟨d', k, new, hw, hs, -, hk⟩ := writeToFile_exact hl.geometry hchain hc.disjoint_free
    (fun a ha => (mem_freeClusters.mp ha).1.trans_le hl.entries) ho h2 buf num
  obtain rfl : k = num := by omega
  exact ⟨d', new, hw, hs.written he⟩

/-- `sys_write` of a chunk whose data is on the disk `d` by then: the new size may go to a slot. -/
theorem Appendable.sysWrite_eq (h : Appendable fs s fd f l) (hfd : fd ≠ stdoutFiledesc)
    {chunk : List UInt8} (hne : chunk ≠ [])
    (hsmall : f.directoryEntry.fileSizeBytes + chunk.length < 2 ^ 31) {d : Disk}
    (hw : writeToFile fs s.disk f.directoryEntry.firstCluster f.directoryEntry.fileSizeBytes
      (bufferOf chunk) chunk.length = (d, chunk.length)) (hv : DirsValid (used fs) d) :
    ∃ d', sysWrite fs s fd (bufferOf chunk) chunk.length = some ((chunk.length : Int), { s with
        disk := d'
        openFiles := updateOpenFile fd (fun _ => appended f chunk.length) s.openFiles }) ∧
      (d' = d ∨ ∃ q first, updateSlot fs d f.path f.directoryEntry.filename
        f.directoryEntry.extension = some (some q) ∧ IsSlot fs q ∧
        d' = writeSlot d q (appended f chunk.length).directoryEntry first) := by
  have hlen : 0 < chunk.length := List.length_pos_iff.mpr hne
  have hset : settleOffset f = { f with offset := f.directoryEntry.fileSizeBytes } :=
    if_pos h.append
  obtain ⟨r, g, d', he, hout⟩ := writeAtOffset_eq (s := s) (f := settleOffset f) hl
    (by rw [hset]; exact hw) hv.to_listed
  have hsum : (f.directoryEntry.fileSizeBytes + chunk.length) % 2 ^ 32 =
      f.directoryEntry.fileSizeBytes + chunk.length := Nat.mod_eq_of_lt (by omega)
  have hgrown : grown (settleOffset f) chunk.length = appended f chunk.length := by
    rw [hset, grown, appended]
    simp only [hsum]
  have hwrite : sysWrite fs s fd (bufferOf chunk) chunk.length = some (r, { s with
      disk := d'
      openFiles := updateOpenFile fd (fun _ => g) s.openFiles }) := by
    rw [sysWrite, if_neg hfd, h.found]
    simp only [if_neg h.regular]
    rw [he, settleOffset_fd, (findOpenFileByFd_mem h.found).2]
  cases hout with
  | failed wrapped => exact absurd wrapped (toInt32_nonneg (by omega))
  | inside size =>
    rw [hset] at size
    simp only [hsum] at size
    omega
  | unstored size slot => exact ⟨d, hgrown ▸ hwrite, Or.inl rfl⟩
  | stored size slot isSlot found =>
    refine ⟨_, hgrown ▸ hwrite, Or.inr ⟨_, _, ?_, isSlot, rfl⟩⟩
    simpa using slot

/-- One chunk. -/
theorem Appendable.write (h : Appendable fs s fd f l) (hfd : fd ≠ stdoutFiledesc)
    {chunk : List UInt8} (hne : chunk ≠ [])
    (hin : f.directoryEntry.fileSizeBytes < l.length * bytesPerCluster fs)
    (h2 : ∀ a ∈ freeClusters fs s.disk, 2 ≤ a)
    (hroom : f.directoryEntry.fileSizeBytes + chunk.length ≤
      (l.length + (freeClusters fs s.disk).length) * bytesPerCluster fs)
    (hsmall : f.directoryEntry.fileSizeBytes + chunk.length < 2 ^ 31)
    (hslot : SlotApart fs (writeToFile fs s.disk f.directoryEntry.firstCluster
      f.directoryEntry.fileSizeBytes (bufferOf chunk) chunk.length).1 f) :
    ∃ t g new, sysWrite fs s fd (bufferOf chunk) chunk.length = some ((chunk.length : Int), t) ∧
      Appendable fs t fd g (l ++ new) ∧
      new.length ≤ (freeClusters fs s.disk).length ∧
      freeClusters fs t.disk = (freeClusters fs s.disk).drop new.length ∧
      g.directoryEntry.fileSizeBytes = f.directoryEntry.fileSizeBytes + chunk.length ∧
      contents fs t.disk (l ++ new) g.directoryEntry.fileSizeBytes =
        contents fs s.disk l f.directoryEntry.fileSizeBytes ++ chunk := by
  obtain ⟨d, new, hw, hwr⟩ := writeToFile_all hl h.chain hin h2 (bufferOf chunk) hroom
  rw [hw] at hslot
  have hchain := hwr.fileChain h.chain
  have hdirs := h.dirs.written hl h.chain hwr
  obtain ⟨d', hwrite, hd'⟩ := h.sysWrite_eq hl hfd hne hsmall hw hdirs.valid
  have hkept : FileKept fs d d' f.directoryEntry.firstCluster (l ++ new) := by
    obtain rfl | ⟨q, first, hu, hq, rfl⟩ := hd'
    · exact ⟨hchain, rfl, hdirs, fun _ _ => rfl⟩
    · exact .store hl hchain hdirs hq h.regular rfl (hslot q _ hu hchain)
  have hcap : l.length * bytesPerCluster fs ≤ (l ++ new).length * bytesPerCluster fs :=
    Nat.mul_le_mul_right _ (by simp)
  have hwithin := hwr.within
  refine ⟨_, appended f chunk.length, new, hwrite, ?_, ?_, hkept.free.trans hwr.left, rfl, ?_⟩
  · exact ⟨find?_updateOpenFile h.found (findOpenFileByFd_mem h.found).2, h.append, h.regular,
      hkept.chain, hwithin, hkept.dirs⟩
  · have htaken := congrArg List.length hwr.taken
    rw [List.length_take] at htaken
    omega
  · refine bytesOf_append (fun k hk => ?_) fun k hk => ?_
    · rw [hkept.data k (by omega), hwr.data k (by omega), if_neg (by omega),
        chainByte_append new (by omega)]
    · rw [hkept.data _ (by omega), hwr.data _ (by omega), if_pos (by omega), Nat.add_sub_cancel_left]

/-- All chunks, one after the other. -/
theorem Appendable.writeChunks (h : Appendable fs s fd f l) (hfd : fd ≠ stdoutFiledesc)
    {chunks : List (List UInt8)} (hne : ∀ chunk ∈ chunks, chunk ≠ []) {capacity : Nat}
    (hcap : capacity ≤ l.length * bytesPerCluster fs)
    (hstart : StartsInside fs capacity f.directoryEntry.fileSizeBytes chunks)
    (h2 : ∀ a ∈ freeClusters fs s.disk, 2 ≤ a)
    (hroom : f.directoryEntry.fileSizeBytes + chunks.flatten.length ≤
      (l.length + (freeClusters fs s.disk).length) * bytesPerCluster fs)
    (hsmall : f.directoryEntry.fileSizeBytes + chunks.flatten.length < 2 ^ 31)
    (hslots : SlotsApart fs fd chunks s) :
    ∃ t g m, writeChunks fs fd chunks s = some (chunks.map fun chunk => (chunk.length : Int), t) ∧
      Appendable fs t fd g m ∧
      g.directoryEntry.fileSizeBytes = f.directoryEntry.fileSizeBytes + chunks.flatten.length ∧
      contents fs t.disk m g.directoryEntry.fileSizeBytes =
        contents fs s.disk l f.directoryEntry.fileSizeBytes ++ chunks.flatten := by
  induction chunks generalizing s f l with
  | nil => exact ⟨s, f, l, rfl, h, by simp, by simp⟩
  | cons chunk chunks ih =>
    rw [List.flatten_cons, List.length_append] at hroom hsmall ⊢
    -- the file does not end at the end of its chain
    have hin : f.directoryEntry.fileSizeBytes < l.length * bytesPerCluster fs := by
      refine lt_of_le_of_ne h.fits fun he => hstart.1 ?_
      exact ⟨he ▸ Nat.dvd_mul_left _ _, he ▸ hcap⟩
    obtain ⟨t, g, new, hw, hg, hnew, hfree, hsize, hdata⟩ := h.write hl hfd (hne chunk (by simp)) hin
      h2 (by omega) (by omega) (hslots.1 f h.found)
    have hlen : (l ++ new).length + (freeClusters fs t.disk).length =
        l.length + (freeClusters fs s.disk).length := by
      rw [hfree, List.length_append, List.length_drop]
      omega
    obtain ⟨u, g', m, hws, hg', hsize', hdata'⟩ := ih hg (fun c hc => hne c (by simp [hc]))
      (hcap.trans (Nat.mul_le_mul_right _ (by simp))) (hsize ▸ hstart.2)
      (fun a ha => h2 a (List.mem_of_mem_drop (hfree ▸ ha))) (by rw [hlen, hsize]; omega)
      (by omega) (hslots.2 _ t hw)
    refine ⟨u, g', m, ?_, hg', by omega, ?_⟩
    · simp only [Fat.writeChunks, hw, hws, Option.bind_eq_bind, Option.bind_some, List.map_cons]
      rfl
    · rw [hdata', hdata, List.append_assoc]

omit hl in
theorem sysLseek_start (hf : findOpenFileByFd s fd = some f) :
    (sysLseek s fd 0 seekSet).1 = 0 ∧ (sysLseek s fd 0 seekSet).2.disk = s.disk ∧
      findOpenFileByFd (sysLseek s fd 0 seekSet).2 fd = some { f with offset := 0 } := by
  have hseek : sysLseek s fd 0 seekSet = (0, { s with
      openFiles := updateOpenFile fd (fun f => { f with offset := 0 }) s.openFiles }) := by
    rw [sysLseek, hf]
    rfl
  rw [hseek]
  exact ⟨rfl, rfl, find?_updateOpenFile hf (findOpenFileByFd_mem hf).2⟩

/-- Reading from the start comes at most to the end of the chain. -/
theorem sysRead_start (hf : findOpenFileByFd s fd = some f) (hfd : fd ≠ stdinFiledesc)
    (hc : FileChain fs s.disk f.directoryEntry.firstCluster l) (buf : Buffer) {n : Nat}
    (hn : n < 2 ^ 31) :
    (sysRead fs (sysLseek s fd 0 seekSet).2 fd buf n).1 =
      (min n (l.length * bytesPerCluster fs) : Nat) ∧
    (sysRead fs (sysLseek s fd 0 seekSet).2 fd buf n).2.1 =
      readBuffer fs s.disk l 0 (min n (l.length * bytesPerCluster fs)) buf := by
  obtain ⟨-, hdisk, hfound⟩ := sysLseek_start hf
  have hpos : 0 < l.length * bytesPerCluster fs :=
    Nat.mul_pos (List.length_pos_iff.mpr hc.nonempty) (bytesPerCluster_pos fs)
  have hfirst := (hc.inTable _ hc.start_mem).1
  simp only [sysRead, if_neg hfd, hfound, hdisk]
  obtain ⟨e, -, hchain⟩ := hc.chain hl.toLayout
  rw [if_neg (by omega), readFromFile_eq hl.clusterSize hchain.toWalk hpos, Nat.sub_zero]
  simp only [if_neg (toInt32_nonneg (lt_of_le_of_lt (Nat.min_le_left _ _) hn)), and_self]

/-- Reading from the start gives the data of the file. -/
theorem Appendable.read (h : Appendable fs s fd f l) (hfd : fd ≠ stdinFiledesc)
    (hsmall : f.directoryEntry.fileSizeBytes < 2 ^ 31) (buf : Buffer) :
    (sysRead fs (sysLseek s fd 0 seekSet).2 fd buf f.directoryEntry.fileSizeBytes).1 =
      f.directoryEntry.fileSizeBytes ∧
    bytesOf (sysRead fs (sysLseek s fd 0 seekSet).2 fd buf f.directoryEntry.fileSizeBytes).2.1
      f.directoryEntry.fileSizeBytes = contents fs s.disk l f.directoryEntry.fileSizeBytes := by
  obtain ⟨hres, hbuf⟩ := sysRead_start hl h.found hfd h.chain buf hsmall
  rw [Nat.min_eq_left h.fits] at hres hbuf
  refine ⟨hres, ?_⟩
  rw [hbuf]
  refine bytesOf_congr fun k hk => ?_
  rw [readBuffer, if_pos hk, Nat.zero_add]

/-- Chunks that are appended to a file come back behind its old contents, as long as no chunk
starts at the end of the chain and no new size goes to the data of the file. -/
theorem appends_read_back {d₀ : Disk} {calls : List Call} {s₀ : State}
    (hrun : run (step fs) calls (fileInitialise d₀) = some s₀) {pathname : CharPtr} {flags : UInt32}
    (hopen : sysOpen fs s₀ pathname flags.toNat = some (fd, s)) (hflag : flags.toNat &&& oAppend ≠ 0)
    (hi : Integral fs s) (hf : findOpenFileByFd s fd = some f)
    (hs : ¬ isSubdirectory f.directoryEntry.attributes)
    (hc : FileChain fs s.disk f.directoryEntry.firstCluster l)
    (hsize : f.directoryEntry.fileSizeBytes ≤ l.length * bytesPerCluster fs)
    {chunks : List (List UInt8)} (hne : ∀ chunk ∈ chunks, chunk ≠ []) {total : Nat}
    (htotal : total = f.directoryEntry.fileSizeBytes + chunks.flatten.length)
    (h2 : ∀ a ∈ freeClusters fs s.disk, 2 ≤ a)
    (hroom : total ≤ (l.length + (freeClusters fs s.disk).length) * bytesPerCluster fs)
    (hsmall : total < 2 ^ 31)
    (hstart : StartsInside fs (l.length * bytesPerCluster fs) f.directoryEntry.fileSizeBytes chunks)
    (hslots : SlotsApart fs fd chunks s) :
    ∃ t, writeChunks fs fd chunks s = some (chunks.map fun chunk => (chunk.length : Int), t) ∧
      (sysLseek t fd 0 seekSet).1 = 0 ∧ ∀ buf,
        (sysRead fs (sysLseek t fd 0 seekSet).2 fd buf total).1 = total ∧
        bytesOf (sysRead fs (sysLseek t fd 0 seekSet).2 fd buf total).2.1 total =
          contents fs s.disk l f.directoryEntry.fileSizeBytes ++ chunks.flatten := by
  have htable₀ := run_table (fileInitialise_table d₀) hrun
  have htable : TableInv s := htable₀.step (sysOpen_table htable₀ hopen)
  obtain ⟨hm, rfl⟩ := findOpenFileByFd_mem hf
  have h₃ := (htable.range f hm).1
  have hheld : heldBy s.openFiles f.directoryEntry.firstCluster := ⟨f, hm, hs, rfl⟩
  have happ : Appendable fs s f.fd f l :=
    ⟨hf, sysOpen_append hopen (by omega) hf hflag, hs, hc, hsize, hi.dirs, hi.dir_apart hheld hc⟩
  rw [htotal] at hroom hsmall
  obtain ⟨t, g, m, hw, hg, hgs, hdata⟩ := happ.writeChunks hl (by unfold stdoutFiledesc; omega) hne
    (Nat.le_refl _) hstart h2 hroom hsmall hslots
  have hread := hg.read hl (by unfold stdinFiledesc; omega) (by omega)
  rw [htotal, ← hgs]
  exact ⟨t, hw, (sysLseek_start hg.found).1, fun buf => ⟨(hread buf).1, (hread buf).2.trans hdata⟩⟩

end Writes

section Lost
variable {fs : Fat16} (hl : DirLayout fs) {s : State} {fd : Int} {f : OpenFile} {l : List Nat}
include hl

/-- A chunk of at most a cluster that is appended at the end of the chain is never read back. -/
theorem Appendable.lost_at_end (h : Appendable fs s fd f l) (hfd : fd ≠ stdoutFiledesc)
    (hfd' : fd ≠ stdinFiledesc)
    (hend : f.directoryEntry.fileSizeBytes = l.length * bytesPerCluster fs) {chunk : List UInt8}
    (hne : chunk ≠ []) (hlen : chunk.length ≤ bytesPerCluster fs)
    (hsmall : f.directoryEntry.fileSizeBytes + chunk.length < 2 ^ 31) :
    ∃ t, sysWrite fs s fd (bufferOf chunk) chunk.length = some ((chunk.length : Int), t) ∧
      ∀ buf, (sysRead fs (sysLseek t fd 0 seekSet).2 fd buf
        (f.directoryEntry.fileSizeBytes + chunk.length)).1 = f.directoryEntry.fileSizeBytes := by
  obtain ⟨e, he, he', hw⟩ := writeToFile_end hl h.chain (bufferOf chunk) hlen
  rw [← hend] at hw
  obtain ⟨d', hwrite, hd'⟩ := h.sysWrite_eq hl hfd hne hsmall hw (h.dirs.outside hl he he' _)
  have hchain : FileChain fs (writePart fs s.disk e 0 (bufferOf chunk) 0 chunk.length)
      f.directoryEntry.firstCluster l :=
    h.chain.congr fun a ha => getSuccessor_writePart hl.geometry (h.chain.inTable a ha).2
      (by omega) he' _
  have hchain' : FileChain fs d' f.directoryEntry.firstCluster l := by
    obtain rfl | ⟨q, first, -, hq, rfl⟩ := hd'
    · exact hchain
    · exact (FileChain.writeSlot_iff hl.toLayout hq).mpr hchain
  refine ⟨_, hwrite, fun buf => ?_⟩
  have hfound : findOpenFileByFd { s with
      disk := d'
      openFiles := updateOpenFile fd (fun _ => appended f chunk.length) s.openFiles } fd =
      some (appended f chunk.length) :=
    find?_updateOpenFile h.found (findOpenFileByFd_mem h.found).2
  rw [(sysRead_start hl hfound hfd' hchain' buf hsmall).1, ← hend,
    Nat.min_eq_right (Nat.le_add_right _ _)]

end Lost

section Examples

/-- The record of `/BB.TXT`, opened with `O_CREAT | O_APPEND`. -/
def appendRecord (size : Nat) : OpenFile :=
  ⟨3, { madeRecord.directoryEntry with fileSizeBytes := size }, rootPath, size, true⟩

theorem slotApart_of_root {d : Disk} {f : OpenFile} {q : Slot}
    (h : updateSlot smallVolume d f.path f.directoryEntry.filename f.directoryEntry.extension =
      some (some q)) (hq : q.sector < 4) : SlotApart smallVolume d f := by
  intro q' l hq' _ hm
  obtain rfl := Option.some.inj (Option.some.inj (h.symm.trans hq'))
  have hle : 4 ≤ q.sector := chainSector_behind hm
  omega

/-- Two chunks of 20 bytes, of which the second goes on in a new cluster. -/
def twoChunks : List (List UInt8) := [List.replicate 20 0x58, List.replicate 20 0x59]

theorem twoChunks_apart {s : State}
    (h : sysOpen smallVolume (fileInitialise emptyDisk) rootPath 3 = some (3, s)) :
    SlotsApart smallVolume 3 twoChunks s := by
  have hfirst : (sysOpen smallVolume (fileInitialise emptyDisk) rootPath 3).map (fun r =>
      (findOpenFileByFd r.2 3, updateSlot smallVolume (writeToFile smallVolume r.2.disk 3 0
        (bufferOf (List.replicate 20 0x58)) 20).1 rootPath madeRecord.directoryEntry.filename
        madeRecord.directoryEntry.extension)) =
      some (some (appendRecord 0), some (some ⟨2, 0⟩)) := by decide +kernel
  have hsecond : ((sysOpen smallVolume (fileInitialise emptyDisk) rootPath 3).bind fun r =>
      sysWrite smallVolume r.2 3 (bufferOf (List.replicate 20 0x58)) 20).map (fun r =>
      (findOpenFileByFd r.2 3, updateSlot smallVolume (writeToFile smallVolume r.2.disk 3 20
        (bufferOf (List.replicate 20 0x59)) 20).1 rootPath madeRecord.directoryEntry.filename
        madeRecord.directoryEntry.extension)) =
      some (some (appendRecord 20), some (some ⟨2, 0⟩)) := by decide +kernel
  rw [h] at hfirst hsecond
  simp only [Option.map_some, Option.bind_some, Option.some.injEq, Prod.mk.injEq] at hfirst hsecond
  refine ⟨fun f hf => ?_, fun r t ht => ⟨fun f hf => ?_, fun _ _ _ => trivial⟩⟩
  · obtain rfl := Option.some.inj (hfirst.1.symm.trans hf)
    exact slotApart_of_root hfirst.2 (by decide)
  · rw [List.length_replicate] at ht
    rw [ht] at hsecond
    simp only [Option.map_some, Option.some.injEq, Prod.mk.injEq] at hsecond
    obtain rfl := Option.some.inj (hsecond.1.symm.trans hf)
    exact slotApart_of_root hsecond.2 (by decide)

theorem twoChunks_read_back : ∃ s t,
    sysOpen smallVolume (fileInitialise emptyDisk) rootPath 3 = some (3, s) ∧
    writeChunks smallVolume 3 twoChunks s = some ([20, 20], t) ∧
    ∀ buf, bytesOf (sysRead smallVolume (sysLseek t 3 0 seekSet).2 3 buf 40).2.1 40 =
      twoChunks.flatten := by
  have hres : (sysOpen smallVolume (fileInitialise emptyDisk) rootPath 3).map (fun r => (r.1,
      findOpenFileByFd r.2 3, getSuccessorCluster smallVolume r.2.disk 3,
      freeClusters smallVolume r.2.disk)) =
      some (3, some (appendRecord 0), 0xffff, [4, 5, 6, 7, 8, 9, 10, 11, 12, 13, 14, 15]) := by
    decide +kernel
  obtain ⟨⟨fd, s⟩, hopen, he⟩ := Option.map_eq_some_iff.mp hres
  simp only [Prod.mk.injEq] at he
  obtain ⟨rfl, hf, hnext, hfree⟩ := he
  obtain ⟨r, s', hopen', hi⟩ := call_integral (c := .openCall rootPath 3) smallVolume_layout
    (integral_initial emptyDisk_sound) fun _ _ _ => rootPath_createGuard
  obtain ⟨rfl, rfl⟩ := Prod.mk.inj (Option.some.inj (hopen.symm.trans hopen'))
  have hopen₃ : sysOpen smallVolume (fileInitialise emptyDisk) rootPath (3 : UInt32).toNat =
      some (3, s) := hopen
  obtain ⟨t, hw, -, hread⟩ : ∃ t, writeChunks smallVolume 3 twoChunks s = some ([20, 20], t) ∧ _ :=
    appends_read_back smallVolume_layout (show run (step smallVolume) [] _ = _ from rfl) hopen₃
      (by decide) hi hf (by decide) (fileChain_three hnext) (by decide) (by decide) rfl
      (by rw [hfree]; decide) (by rw [hfree]; decide) (by decide)
      (by simp [StartsInside, twoChunks]; decide) (twoChunks_apart hopen)
  exact ⟨s, t, hopen, hw, fun buf => (hread buf).2⟩

/-- A byte that is appended to a full cluster is not read back. -/
theorem append_not_read_back : WellFormed smallVolume filledDisk ∧ ∃ s t f,
    sysOpen smallVolume (fileInitialise filledDisk) filledPath 2 = some (3, s) ∧
    findOpenFileByFd s 3 = some f ∧ ¬ isSubdirectory f.directoryEntry.attributes ∧
    f.directoryEntry.fileSizeBytes = 32 ∧ 4 ∈ freeClusters smallVolume s.disk ∧
    writeChunks smallVolume 3 [[0x58]] s = some ([1], t) ∧
    (sysRead smallVolume (sysLseek t 3 0 seekSet).2 3 zeroBuffer 33).1 = 32 := by
  have hres : ((sysOpen smallVolume (fileInitialise filledDisk) filledPath 2).bind fun r =>
      (writeChunks smallVolume 3 [[0x58]] r.2).map fun w => (r.1, findOpenFileByFd r.2 3,
        decide (4 ∈ freeClusters smallVolume r.2.disk), w.1,
        (sysRead smallVolume (sysLseek w.2 3 0 seekSet).2 3 zeroBuffer 33).1)) =
      some (3, some ⟨3, filledFile.entry, filledPath, 0, true⟩, true, [1], 32) := by decide +kernel
  obtain ⟨⟨fd, s⟩, hopen, hw⟩ := Option.bind_eq_some_iff.mp hres
  obtain ⟨⟨rs, t⟩, hw, he⟩ := Option.map_eq_some_iff.mp hw
  simp only [Prod.mk.injEq, decide_eq_true_eq] at he
  obtain ⟨rfl, hf, hfree, rfl, hread⟩ := he
  exact ⟨filledDisk_oneFile.wellFormed, s, t, _, hopen, hf, by decide, rfl, hfree, hw, hread⟩

end Examples
end MalapropOS.Fat
