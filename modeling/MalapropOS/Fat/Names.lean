import MalapropOS.Fat.Unlink

/-! How the name of a file survives being stored. A new entry is padded with blanks, which a listing
takes for the end of the name, and the first byte stands for another one in two cases. -/
namespace MalapropOS.Fat

/-- An entry as a listing reads it back once it is stored. -/
def storedEntry (e : DirEntry) (first : UInt8) : DirEntry :=
  decodeEntry (storeEntry zeroBuffer 0 e first) 0

/-- The characters of a file name that go to the array for the name. -/
def nameChars (filename : CharPtr) : List UInt8 :=
  (filename.take 8).takeWhile fun c => c ≠ dot ∧ c ≠ 0

/-- A file name that is read back as it was stored. -/
structure NameKept (filename : CharPtr) : Prop where
  noBlank : 0x20 ∉ nameChars filename
  first : (nameChars filename).head? ≠ some 0x05
  short : (nameChars filename).length < 8 ∨ (splitFilename filename).extension = []
  noBlankExtension : 0x20 ∉ (splitFilename filename).extension

section Stored
variable {x : Buffer} {e : DirEntry} {first : UInt8}

theorem entryByte_name (e : DirEntry) (first : UInt8) {k : Nat} (hk : k < 0x0b) :
    ∃ b, entryByte e first k = some b :=
  entryByte_read e first (Or.inl (by omega))

/-- An entry has its name wherever it is stored. -/
theorem entryNamed_stored {y : Buffer} {i : Nat} (n : FileName)
    (h : ∀ k < 0x0b, y (i + k) = storeEntry x 0 e first k) :
    entryNamed n (decodeEntry y i) = entryNamed n (storedEntry e first) := by
  have hbytes : ∀ k < 0x0b, y (i + k) = storeEntry zeroBuffer 0 e first (0 + k) := by
    intro k hk
    obtain ⟨b, hb⟩ := entryByte_name e first hk
    rw [h k hk, storeEntry, storeEntry, if_pos (Nat.zero_le _), if_pos (Nat.zero_le _), Nat.zero_add,
      Nat.sub_zero, hb]
    rfl
  obtain ⟨hn, he⟩ := decodeEntry_name hbytes
  rw [entryNamed, entryNamed, storedEntry, hn, he]

end Stored

section Strings

/-- A blank is read as the end of a name. -/
def decodeChar (c : UInt8) : UInt8 := if c = 0x20 then 0 else c

theorem map_range_at {n : Nat} {s : List UInt8} (h : n ≤ s.length) (g : UInt8 → UInt8) :
    (List.range n).map (fun k => g (CharPtr.at s k)) = (s.take n).map g := by
  refine List.ext_getElem (by simp [h]) fun k hk hk' => ?_
  have hlt : k < s.length := by
    simp at hk
    omega
  rw [List.getElem_map, List.getElem_map, List.getElem_range, List.getElem_take, CharPtr.at,
    List.getD_eq_getElem _ _ hlt]

theorem cstr_append {s : List UInt8} (h : (0 : UInt8) ∉ s) (t : List UInt8) :
    cstr (s ++ t) = s ++ cstr t :=
  List.takeWhile_append_of_pos fun c hc => decide_eq_true fun h₀ : c = 0 => h (h₀ ▸ hc)

/-- What is read of a padded name ends at its first blank. -/
theorem cstr_decoded {s : List UInt8} (h : (0 : UInt8) ∉ s) (n : Nat) :
    cstr ((s ++ List.replicate n 0x20).map decodeChar ++ [0]) = s.takeWhile (· ≠ 0x20) := by
  induction s with
  | nil => cases n <;> simp [cstr, decodeChar, List.replicate_succ]
  | cons c s ih =>
    have hc : c ≠ 0 := fun hc => h (by simp [hc])
    have ih := ih fun hm => h (by simp [hm])
    by_cases hb : c = 0x20
    · simp [cstr, decodeChar, hb]
    · rw [List.cons_append, List.map_cons, List.cons_append, decodeChar, if_neg hb,
        cstr_cons_of_ne hc, ih, List.takeWhile_cons_of_pos (by simpa using hb)]

theorem takeWhile_eq_append_iff {s t : List UInt8} {p : UInt8 → Bool} :
    s ++ t = s.takeWhile p ↔ t = [] ∧ ∀ c ∈ s, p c = true := by
  constructor
  · intro h
    have hlen := congrArg List.length h
    have hle := (List.takeWhile_prefix p (l := s)).length_le
    rw [List.length_append] at hlen
    obtain rfl : t = [] := List.length_eq_zero_iff.mp (by omega)
    rw [List.append_nil] at h
    exact ⟨rfl, List.takeWhile_eq_self_iff.mp h.symm⟩
  · rintro ⟨rfl, h⟩
    rw [List.append_nil, List.takeWhile_eq_self_iff.mpr h]

end Strings

section Names
variable {fs : Fat16} {d : Disk} {pathname filename : CharPtr} {attributes : UInt8}

theorem nameChars_no_nul : (0 : UInt8) ∉ nameChars filename := by
  intro h
  simpa using List.mem_takeWhile_imp h

theorem nameChars_length : (nameChars filename).length ≤ 8 :=
  (List.takeWhile_prefix _).length_le.trans (List.length_take_le 8 filename)

theorem extension_eq : (splitFilename filename).extension =
    if CharPtr.at filename (nameChars filename).length = 0 then []
    else ((filename.drop ((nameChars filename).length + 1)).take 3).takeWhile (· ≠ 0) :=
  rfl

theorem name_eq : (splitFilename filename).name = nameChars filename ++
    List.replicate (8 - (nameChars filename).length) 0 ++ (splitFilename filename).extension :=
  rfl

theorem extension_no_nul : (0 : UInt8) ∉ (splitFilename filename).extension := by
  rw [extension_eq]
  split_ifs
  · exact List.not_mem_nil
  · intro h
    simpa using List.mem_takeWhile_imp h

theorem extension_length : (splitFilename filename).extension.length ≤ 3 := by
  rw [extension_eq]
  split_ifs
  · exact Nat.zero_le 3
  · exact (List.takeWhile_prefix _).length_le.trans (List.length_take_le 3 _)

theorem padName_name : padName (splitFilename filename).name 8 =
    nameChars filename ++ List.replicate (8 - (nameChars filename).length) 0x20 ++ [0] := by
  have hlen : (nameChars filename).length ≤ 8 := nameChars_length
  have htake : (splitFilename filename).name.take 8 =
      nameChars filename ++ List.replicate (8 - (nameChars filename).length) 0 := by
    rw [name_eq]
    exact List.take_left' (by simp only [List.length_append, List.length_replicate]; omega)
  have hnil : cstr (List.replicate (8 - (nameChars filename).length) 0) = [] := by
    cases 8 - (nameChars filename).length <;> simp [cstr, List.replicate_succ]
  rw [padName, htake, cstr_append nameChars_no_nul, hnil, List.append_nil]

theorem padName_extension : padName (splitFilename filename).extension 3 =
    (splitFilename filename).extension ++
      List.replicate (3 - (splitFilename filename).extension.length) 0x20 ++ [0] := by
  rw [padName, List.take_of_length_le extension_length, cstr_of_no_nul extension_no_nul]

/-- The string in the array for the name runs on if it fills the array. -/
theorem cstr_name : cstr (splitFilename filename).name = nameChars filename ++
    if (nameChars filename).length < 8 then [] else (splitFilename filename).extension := by
  rw [name_eq, List.append_assoc, cstr_append nameChars_no_nul]
  congr 1
  split_ifs with hlt
  · obtain ⟨m, hm⟩ : ∃ m, 8 - (nameChars filename).length = m + 1 :=
      ⟨7 - (nameChars filename).length, by omega⟩
    rw [hm, List.replicate_succ]
    rfl
  · have hm : 8 - (nameChars filename).length = 0 := by omega
    rw [hm, List.replicate_zero, List.nil_append, cstr_of_no_nul extension_no_nul]

/-- The first character 0x05 is read as 0xe5. -/
def readFirst (s : List UInt8) : List UInt8 := if s.head? = some 0x05 then 0xe5 :: s.tail else s

theorem storedEntry_filename {e : DirEntry} {a : UInt8} {s : List UInt8} (hs : 7 ≤ s.length)
    (he : e.filename = a :: s) : (storedEntry e (newFirstByte e)).filename =
      decodeChar (if a = 0x05 then 0xe5 else a) :: (s.take 7).map decodeChar ++ [0] := by
  have hfirst : newFirstByte e = if a = 0xe5 then 0x05 else a := by
    rw [newFirstByte, he]
    rfl
  have hbyte : ∀ k < 8, storeEntry zeroBuffer 0 e (newFirstByte e) (0 + k) =
      CharPtr.at (newFirstByte e :: s) k := by
    intro k hk
    rw [storeEntry, if_pos (Nat.zero_le _), Nat.sub_zero, Nat.zero_add]
    cases k with
    | zero => rfl
    | succ k => simp [entryByte, hk, he, CharPtr.at]
  have hread : decodeChars (storeEntry zeroBuffer 0 e (newFirstByte e)) 0 8 =
      decodeChar (newFirstByte e) :: (s.take 7).map decodeChar := by
    have h := map_range_at (n := 8) (s := newFirstByte e :: s) (Nat.succ_le_succ hs) decodeChar
    rw [List.take_succ_cons, List.map_cons] at h
    rw [← h]
    refine List.map_congr_left fun k hk => ?_
    rw [hbyte k (List.mem_range.mp hk)]
    rfl
  rw [storedEntry, decodeEntry, hread, ← Nat.zero_add 0, hbyte 0 (by decide), hfirst]
  by_cases h₅ : a = 0xe5
  · simp [CharPtr.at, h₅, decodeChar]
  · by_cases h₀ : a = 0x05
    · simp [CharPtr.at, h₀, decodeChar]
    · simp [CharPtr.at, h₅, h₀]

/-- The name of a new entry, as it is read back. -/
theorem newFile_filename {e : DirEntry} {c : List UInt8} (hc : c.length ≤ 8)
    (he : e.filename = c ++ List.replicate (8 - c.length) 0x20 ++ [0]) :
    (storedEntry e (newFirstByte e)).filename =
      (readFirst c ++ List.replicate (8 - c.length) 0x20).map decodeChar ++ [0] := by
  cases c with
  | nil => rw [storedEntry_filename (s := List.replicate 7 0x20 ++ [0]) (by decide) he]; rfl
  | cons a c =>
    rw [List.length_cons] at hc
    have hm : 8 - (a :: c).length = 7 - c.length := by simp
    rw [hm] at he ⊢
    have hlen : (c ++ List.replicate (7 - c.length) 0x20).length = 7 := by
      simp only [List.length_append, List.length_replicate]
      omega
    rw [storedEntry_filename (s := c ++ List.replicate (7 - c.length) 0x20 ++ [0])
      (by rw [List.length_append]; omega) he, List.take_left' hlen, readFirst]
    by_cases h₀ : a = 0x05
    · simp [h₀]
    · simp [h₀]

theorem newFile_extension {e : DirEntry} {first : UInt8} {c : List UInt8} (hc : c.length ≤ 3)
    (he : e.extension = c ++ List.replicate (3 - c.length) 0x20 ++ [0]) :
    (storedEntry e first).extension =
      (c ++ List.replicate (3 - c.length) 0x20).map decodeChar ++ [0] := by
  have hread : decodeChars (storeEntry zeroBuffer 0 e first) (0 + 0x08) 3 =
      (List.range 3).map fun k => decodeChar (CharPtr.at e.extension k) := by
    refine List.map_congr_left fun k hk => ?_
    have hk := List.mem_range.mp hk
    have hb : entryByte e first (0 + 0x08 + k) = some (CharPtr.at e.extension k) := by
      have h₈ : ¬ 0x08 + k < 8 := by omega
      have hb : 0x08 + k < 0x0b := by omega
      simp [entryByte, h₈, hb]
    rw [storeEntry, if_pos (Nat.zero_le _), Nat.sub_zero, hb]
    rfl
  have hlen : 3 ≤ e.extension.length := by
    rw [he]
    simp only [List.length_append, List.length_replicate]
    omega
  rw [storedEntry, decodeEntry, hread, map_range_at hlen, he, List.take_left']
  simp only [List.length_append, List.length_replicate]
  omega

/-- The file is found under its name in the directory that it was put in just in case the name is
kept. -/
theorem newFile_named_iff : entryNamed (splitFilename (toFilename pathname))
    (storedEntry (newFile fs d pathname attributes)
      (newFirstByte (newFile fs d pathname attributes))) ↔ NameKept (toFilename pathname) := by
  rw [entryNamed_iff, newFile_filename nameChars_length padName_name,
    newFile_extension extension_length padName_extension, cstr_decoded extension_no_nul,
    cstr_of_no_nul extension_no_nul, cstr_name]
  by_cases h₅ : (nameChars (toFilename pathname)).head? = some 0x05
  · -- the first characters differ
    obtain ⟨c, hc⟩ := List.head?_eq_some_iff.mp h₅
    have hno : (0 : UInt8) ∉ 0xe5 :: c := by
      have h : (0 : UInt8) ∉ nameChars (toFilename pathname) := nameChars_no_nul
      rw [hc] at h
      simp only [List.mem_cons, not_or] at h ⊢
      exact ⟨by decide, h.2⟩
    rw [readFirst, if_pos h₅, hc, List.tail_cons, cstr_decoded hno]
    refine ⟨fun h => ?_, fun h => absurd h₅ h.first⟩
    rw [List.takeWhile_cons_of_pos (by decide), List.cons_append] at h
    exact absurd (List.cons.inj h.1).1 (by decide)
  · have hext := takeWhile_eq_append_iff (s := (splitFilename (toFilename pathname)).extension)
      (t := []) (p := (· ≠ 0x20))
    rw [List.append_nil] at hext
    rw [readFirst, if_neg h₅, cstr_decoded nameChars_no_nul, takeWhile_eq_append_iff, hext]
    constructor
    · rintro ⟨⟨hrun, hname⟩, -, hext⟩
      refine ⟨fun hm => by simpa using hname _ hm, h₅, ?_, fun hm => by simpa using hext _ hm⟩
      split_ifs at hrun with hlt
      · exact Or.inl hlt
      · exact Or.inr hrun
    · intro h
      have hne : ∀ s : List UInt8, 0x20 ∉ s → ∀ c ∈ s, (decide (c ≠ 0x20)) = true :=
        fun s hs c hc => decide_eq_true fun he => hs (he ▸ hc)
      refine ⟨⟨?_, hne _ h.noBlank⟩, rfl, hne _ h.noBlankExtension⟩
      split_ifs with hlt
      · rfl
      · exact h.short.resolve_left hlt

end Names
end MalapropOS.Fat
