import MalapropOS.Fat.ByteFiles

/-! The programs `write`, `append` and `cat`, started by the shell while other programs run. What is
written to a file is what is printed. -/
namespace MalapropOS.User
open MalapropOS.Fat Requests

/-- What a program prints, and the status it exits with. -/
structure Exit where
  output : List UInt8
  status : Int

def ascii (s : String) : List UInt8 := s.toList.map fun c => UInt8.ofNat c.toNat

def done : Exit := ⟨[], 0⟩
def invalidArguments : Exit := ⟨ascii "Invalid arguments.\n", -1⟩
def couldNotFind : Exit := ⟨ascii "Could not find file.\n", -1⟩
def ranOutOfSpace : Exit := ⟨ascii "Ran out of space in file.\n", -1⟩
def fileNotFound : Exit := ⟨ascii "File not found.\n", -1⟩
def cannotCat : Exit := ⟨ascii "Cannot cat a directory.\n", -1⟩

abbrev syscall (q : Syscall) : Prog Syscall Reply (Reply q) := ask q

/-- The loop of `write` and `append`. -/
def writeWords (fd : Int) : List CharPtr → Prog Syscall Reply Exit
  | [] => return done
  | word :: words => do
    let len := UInt32.ofNat (cstr word).length
    let lenWritten : Int ← syscall (.write fd (bufferOf word) len)
    let spaceWritten : Int ← syscall (.write fd (bufferOf [0x20]) 1)
    if lenWritten ≠ toInt32 len.toNat ∨ spaceWritten ≠ 1 then return ranOutOfSpace
    else writeWords fd words

/-- `write` and `append` differ in where they start. -/
def putWords (whence : Int) : List CharPtr → Prog Syscall Reply Exit
  | pathname :: word :: words => do
    let fd : Int ← syscall (.openCall pathname 0)
    let _ : Int ← syscall (.lseek fd 0 whence)
    if fd < 0 then return couldNotFind
    else writeWords fd (word :: words)
  | _ => return invalidArguments

def write : List CharPtr → Prog Syscall Reply Exit := putWords seekSet

def append : List CharPtr → Prog Syscall Reply Exit := putWords seekEnd

/-- The memory after `buf[i] = '\0'`; with a negative `i` the byte is in front of it. -/
def terminate (memory : List UInt8) (i : Int) : List UInt8 :=
  if 0 ≤ i then memory.set i.toNat 0 else memory

/-- `entry` and `heap` are what is found in the memory that `stdmem_allocate` returns. -/
def cat (entry : DirEntry) (heap : List UInt8) : List CharPtr → Prog Syscall Reply Exit
  | [pathname] => do
    let fd : Int ← syscall (.openCall pathname 0)
    let _ : Int ← syscall (.lseek fd 0 seekSet)
    let stat : Int × DirEntry ← syscall (.fstat fd entry)
    if stat.1 ≠ 0 then return fileNotFound
    else if isSubdirectory stat.2.attributes then return cannotCat
    else
      let result : Int × Buffer ←
        syscall (.read fd (bufferOf heap) (UInt32.ofNat stat.2.fileSizeBytes))
      return ⟨cstr (terminate (bytesOf result.2 heap.length) result.1) ++ [0x0a], 0⟩
  | _ => return invalidArguments

/-- The words, each with a space behind it. -/
def spaced (words : List CharPtr) : List UInt8 := words.flatMap fun word => cstr word ++ [0x20]

/-- The call does not name the file that is open as `fd` under the path. -/
def Foreign (fd : Int) (path : CharPtr) : Syscall → Prop
  | .openCall pathname _ => cstr pathname ≠ cstr path
  | .write fd' _ _ => fd' ≠ fd
  | .read fd' _ _ => fd' ≠ fd
  | .lseek fd' _ _ => fd' ≠ fd
  | _ => True

section Memory

theorem bytesOf_bufferOf {chunk : List UInt8} {n : Nat} (h : n ≤ chunk.length) :
    bytesOf (bufferOf chunk) n = chunk.take n := by
  apply List.ext_getElem?
  intro i
  rw [getElem?_bytesOf, List.getElem?_take]
  split_ifs with hi
  · rw [List.getElem?_eq_getElem (by omega), bufferOf, List.getD_eq_getElem _ _ (by omega)]
  · rfl

theorem bytesOf_word (word : CharPtr) : bytesOf (bufferOf word) (cstr word).length = cstr word := by
  have hprefix : cstr word <+: word := List.takeWhile_prefix _
  rw [bytesOf_bufferOf hprefix.length_le]
  exact (List.prefix_iff_eq_take.mp hprefix).symm

/-- What is read into a buffer is what is at its start. -/
theorem take_bytesOf {x y : Buffer} {chunk : List UInt8} {n : Nat} (hn : chunk.length ≤ n)
    (h : ∀ i, y i = chunk.getD i (x i)) : (bytesOf y n).take chunk.length = chunk := by
  apply List.ext_getElem?
  intro i
  rw [List.getElem?_take, getElem?_bytesOf]
  by_cases hi : i < chunk.length
  · rw [if_pos hi, if_pos (hi.trans_le hn), h, List.getD_eq_getElem _ _ hi,
      List.getElem?_eq_getElem hi]
  · rw [if_neg hi, List.getElem?_eq_none (Nat.not_lt.mp hi)]

/-- What is printed ends at the byte that was set to zero. -/
theorem cstr_terminate {memory : List UInt8} {n : Nat} (h : n < memory.length) :
    cstr (terminate memory n) = cstr (memory.take n) := by
  rw [terminate, if_pos (Int.natCast_nonneg n), Int.toNat_natCast,
    List.set_eq_take_append_cons_drop, if_pos h]
  simp only [cstr, List.takeWhile_append]
  split_ifs with hall
  · rw [List.takeWhile_cons_of_neg (by simp), List.append_nil,
      (List.takeWhile_sublist _).eq_of_length hall]
  · rfl

end Memory

section Programs
variable {fd : Int} {path : CharPtr} {v w : ByteFile UInt8}
open ByteFile

/-- The machine does not notice calls about other files. -/
theorem Foreign.unnoticed {q : Syscall} {r : Reply q} (hq : Foreign fd path q)
    (h : FileStep fd path v q r w) : w = v := by
  cases q with
  | openCall pathname flags => rwa [FileStep, if_neg hq] at h
  | write fd' buf nbytes => rwa [FileStep, if_neg hq] at h
  | read fd' buf nbytes => rwa [FileStep, if_neg hq] at h
  | lseek fd' offset whence => rwa [FileStep, if_neg hq] at h
  | fstat fd' buf => exact h.1
  | mkdir path => exact h
  | close fd' => exact h
  | unlink pathname => exact h

/-- What a loop of words leaves, if there is room for all. -/
def Written (o : Nat) (text : List UInt8) (v : ByteFile UInt8) (e : Exit) (w : ByteFile UInt8) :
    Prop :=
  e = ranOutOfSpace ∨ e = done ∧ w.Placed ∧ w.data = splice o text v.data

theorem writes_full {buf : Buffer} {chunk : List UInt8} {n : UInt32} {r : Int}
    (hbuf : bytesOf buf n.toNat = chunk) (hn : n.toNat = chunk.length)
    (h : FileStep fd path v (.write fd buf n) r w) (hr : r = (n.toNat : Int)) (hv : v.Placed) :
    w.Placed ∧ w.offset = v.offset + chunk.length ∧ w.data = splice v.offset chunk v.data := by
  rw [FileStep, if_pos rfl, hbuf] at h
  obtain ⟨k, hk, hw⟩ := h
  obtain rfl : k = chunk.length := by
    rw [← hn]
    exact Int.ofNat.inj (hk.symm.trans hr)
  exact hw.full hv

theorem writeWords_ensures {words : List CharPtr}
    (hlen : ∀ word ∈ words, (cstr word).length < 2 ^ 31) (hv : v.Placed) :
    (writeWords fd words).Ensures (FileStep fd path) (Written v.offset (spaced words) v) v := by
  induction words generalizing v with
  | nil => exact Or.inr ⟨rfl, hv, (splice_nil _ _).symm⟩
  | cons word words ih =>
    obtain ⟨hword, hwords⟩ := List.forall_mem_cons.mp hlen
    have hn : (UInt32.ofNat (cstr word).length).toNat = (cstr word).length :=
      UInt32.toNat_ofNat_of_lt' (hword.trans (by decide))
    refine ensures_ask.mpr fun r v₁ h₁ => ensures_ask.mpr fun r₂ v₂ h₂ => ?_
    by_cases hshort : r ≠ toInt32 (UInt32.ofNat (cstr word).length).toNat ∨ r₂ ≠ 1
    · rw [if_pos hshort]
      exact Or.inl rfl
    · rw [if_neg hshort]
      obtain ⟨hr, hr₂⟩ := not_or.mp hshort
      rw [not_not] at hr hr₂
      rw [toInt32_of_lt (hn.symm ▸ hword)] at hr
      obtain ⟨hv₁, ho₁, hd₁⟩ := writes_full (hn.symm ▸ bytesOf_word word) hn h₁ hr hv
      have hspace : bytesOf (bufferOf [0x20]) (1 : UInt32).toNat = [0x20] := rfl
      obtain ⟨hv₂, ho₂, hd₂⟩ := writes_full hspace rfl h₂ hr₂ hv₁
      apply (ih hwords hv₂).mono
      intro e w hw
      refine hw.imp_right fun hdone => ⟨hdone.1, hdone.2.1, ?_⟩
      have hin : v.offset ≤ v.data.length := hv.length_data ▸ hv.inside
      calc w.data = splice v₂.offset (spaced words) v₂.data := hdone.2.2
        _ = splice (v.offset + (cstr word ++ [0x20]).length) (spaced words)
            (splice v.offset (cstr word ++ [0x20]) v.data) := by
          rw [hd₂, ho₂, hd₁, ho₁, splice_splice hin, List.length_append, Nat.add_assoc]
        _ = splice v.offset (spaced (word :: words)) v.data := by
          rw [splice_splice hin]
          rfl

theorem putWords_ensures {whence : Int} {start : Nat} {pathname word : CharPtr} {words : List CharPtr}
    (hstart : whence = seekSet ∧ start = 0 ∨ whence = seekEnd ∧ start = v.size) (hn : cstr pathname = cstr path) (hfd : 0 ≤ fd)
    (hlen : ∀ x ∈ word :: words, (cstr x).length < 2 ^ 31)
    (hstored : v.size ≤ v.bytes.length) (hsize : v.size < 2 ^ 32) :
    (putWords whence (pathname :: word :: words)).Ensures (FileStep fd path)
      (Written start (spaced (word :: words)) v) v := by
  refine ensures_ask.mpr fun r v₁ h₁ => ensures_ask.mpr fun r₂ v₂ h₂ => ?_
  rw [FileStep, if_pos hn] at h₁
  obtain ⟨rfl, rfl⟩ := h₁
  rw [FileStep, if_pos rfl] at h₂
  have hsought : sought { v with append := decide ((0 : UInt32).toNat &&& oAppend ≠ 0) }
      (0 : UInt32).toNat whence = some start := by
    obtain ⟨rfl, rfl⟩ | ⟨rfl, rfl⟩ := hstart
    · rfl
    · exact congrArg some (Nat.mod_eq_of_lt hsize)
  have hle : start ≤ v.size := by
    obtain ⟨-, rfl⟩ | ⟨-, rfl⟩ := hstart
    · exact Nat.zero_le _
    · exact Nat.le_refl _
  rw [hsought] at h₂
  obtain ⟨-, rfl⟩ := h₂
  rw [if_neg (Int.not_lt.mpr hfd)]
  exact writeWords_ensures hlen ⟨rfl, hle, hstored⟩

theorem cat_ensures {entry : DirEntry} {heap : List UInt8} {pathname : CharPtr}
    (hn : cstr pathname = cstr path) (hstored : v.size ≤ v.bytes.length)
    (hsize : v.size < 2 ^ 32) (hheap : v.size < heap.length) :
    (cat entry heap [pathname]).Ensures (FileStep fd path)
      (fun e _ => e = ⟨cstr v.data ++ [0x0a], 0⟩) v := by
  refine ensures_ask.mpr fun r v₁ h₁ => ensures_ask.mpr fun r₂ v₂ h₂ => ?_
  rw [FileStep, if_pos hn] at h₁
  obtain ⟨rfl, rfl⟩ := h₁
  rw [FileStep, if_pos rfl] at h₂
  obtain ⟨-, rfl⟩ := h₂
  refine ensures_ask.mpr fun stat v₃ h₃ => ?_
  obtain ⟨rfl, hstat⟩ := h₃
  obtain ⟨hfound, hlength, hregular⟩ := hstat rfl
  rw [if_neg (not_not.mpr hfound), if_neg hregular, hlength]
  refine ensures_ask.mpr fun result v₄ h₄ => ?_
  rw [FileStep, if_pos rfl, UInt32.toNat_ofNat_of_lt' hsize] at h₄
  obtain ⟨hcount, hbuf, -⟩ := h₄
  -- the cursor is at the start, and all of the file is next
  have hall : v.data.length = v.size := by
    rw [data, List.length_take]
    exact Nat.min_eq_left hstored
  have hmemory : (bytesOf result.2 heap.length).take v.data.length = v.data :=
    take_bytesOf (hall ▸ hheap.le) hbuf
  have hend : v.data.length < (bytesOf result.2 heap.length).length := by
    rw [length_bytesOf, hall]
    exact hheap
  have hprinted : cstr (terminate (bytesOf result.2 heap.length) result.1) = cstr v.data := by
    rw [hcount]
    exact (cstr_terminate hend).trans (congrArg cstr hmemory)
  exact congrArg (fun text => (⟨text ++ [0x0a], 0⟩ : Exit)) hprinted

end Programs

section Examples

/-- The requests of `cat`, and what is found. -/
def reading (stat : Int × DirEntry) (result : Int × Buffer) : List (Event Reply) :=
  [⟨true, .openCall rootPath 0, (3 : Int)⟩, ⟨true, .lseek 3 0 seekSet, (0 : Int)⟩,
    ⟨true, .fstat 3 madeRecord.directoryEntry, stat⟩,
    ⟨true, .read 3 (bufferOf (List.replicate 4 0xff)) 3, result⟩]

theorem reading_happens {t : State} (hknown : findOpenFile t rootPath = some (openRecord 3 3))
    (hfound : findOpenFileByFd t 3 = some (openRecord 3 3)) :
    ∃ u result, Happens (answer smallVolume) (Admitted smallVolume 3 3)
      (reading (0, (openRecord 3 0).directoryEntry) result) t u := by
  obtain ⟨t₁, hopen, hfound₁⟩ : ∃ t₁,
      sysOpen smallVolume t rootPath (0 : UInt32).toNat = some (3, t₁) ∧
      findOpenFileByFd t₁ 3 = some (openRecord 3 3) := by
    rw [sysOpen, hknown]
    exact ⟨_, rfl, find?_updateOpenFile hfound rfl⟩
  obtain ⟨t₂, hseek, hfound₂⟩ : ∃ t₂, sysLseek t₁ 3 (0 : UInt32).toNat seekSet = (0, t₂) ∧
      findOpenFileByFd t₂ 3 = some (openRecord 3 0) := by
    rw [sysLseek, hfound₁]
    exact ⟨_, rfl, find?_updateOpenFile hfound₁ rfl⟩
  have hstat : sysFstat t₂ 3 madeRecord.directoryEntry = (0, (openRecord 3 0).directoryEntry) := by
    rw [sysFstat, hfound₂]
  have hread : Admitted smallVolume 3 3 t₂ (.read 3 (bufferOf (List.replicate 4 0xff)) 3) := by
    refine .of_call rfl trivial trivial fun _ => ⟨by decide, fun f l hf hc => ?_⟩
    obtain rfl := Option.some.inj (hfound₂.symm.trans hf)
    exact Nat.mul_pos (List.length_pos_iff.mpr hc.nonempty) (by decide)
  refine ⟨_, _, .cons (opening_admitted rootPath) hopen <| .cons (seeking_admitted 0 seekSet)
    (congrArg some hseek) <| .cons ⟨?_, ?_, trivial⟩ (congrArg (fun r => some (r, t₂)) hstat) <|
    .cons hread rfl .nil⟩
  · exact fun _ h => by cases h
  · exact fun _ h => by cases h

end Examples
end MalapropOS.User
