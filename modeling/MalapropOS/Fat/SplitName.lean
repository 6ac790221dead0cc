import MalapropOS.Fat.Names

/-! `split_filename` with the memory that it works in. It puts a NUL one place behind the end of each
part, and the two arrays have no room for the NUL of a part that fills them. -/
namespace MalapropOS.Fat

/-- Memory, and the break that `stdmem_allocate` hands it out from. -/
structure Memory where
  bytes : Nat → UInt8
  currentBreak : Nat

/-- The memory while it is written, and the addresses that were written. -/
structure Writing where
  bytes : Nat → UInt8
  written : List Nat

def Writing.set (m : Writing) (a : Nat) (c : UInt8) : Writing :=
  ⟨Function.update m.bytes a c, a :: m.written⟩

theorem Writing.set_bytes (m : Writing) (a : Nat) (c : UInt8) (b : Nat) :
    (m.set a c).bytes b = if b = a then c else m.bytes b :=
  Function.update_apply m.bytes a c b

theorem Writing.mem_set {m : Writing} {a b : Nat} {c : UInt8} :
    b ∈ (m.set a c).written ↔ b = a ∨ b ∈ m.written :=
  List.mem_cons

/-- Both loops: the characters of `source` from `j` on go to the array at `dest`, as long as they
pass the test, but at most `n`. The filename does not lie in the arrays, which are new. -/
def copyWhile (test : UInt8 → Bool) (source : CharPtr) (dest : Nat) :
    Nat → Nat → Writing → Nat × Writing
  | 0, j, m => (j, m)
  | n + 1, j, m =>
    if test (CharPtr.at source j) then
      copyWhile test source dest n (j + 1) (m.set (dest + j) (CharPtr.at source j))
    else (j, m)

/-- The two pointers of `fat16_file_name_t`. -/
structure NamePtrs where
  name : Nat
  extension : Nat

/-- The arrays of a call: 8 and 3 bytes, the second behind the first. -/
def Memory.namePtrs (m : Memory) : NamePtrs := ⟨m.currentBreak, m.currentBreak + 8⟩

/-- `split_filename` once the first loop ended with `i`. -/
def splitExtension (filename : CharPtr) (result : NamePtrs) (i : Nat) (w : Writing) : Writing :=
  let w := w.set (result.name + (i + 1)) 0
  if CharPtr.at filename i = 0 then w.set result.extension 0
  else
    let (j, w) := copyWhile (· ≠ 0) (filename.drop (i + 1)) result.extension 3 0 w
    w.set (result.extension + (j + 1)) 0

/-- What `split_filename` does to the memory. -/
def splitFilenameIn (m : Memory) (filename : CharPtr) : Writing :=
  let (i, w) := copyWhile (fun c => c ≠ dot ∧ c ≠ 0) filename m.namePtrs.name 8 0 ⟨m.bytes, []⟩
  splitExtension filename m.namePtrs i w

/-- The string at `p`: its bytes, and a NUL behind them. -/
structure IsString (bytes : Nat → UInt8) (p : Nat) (s : List UInt8) : Prop where
  chars : ∀ i (h : i < s.length), bytes (p + i) = s[i]
  plain : (0 : UInt8) ∉ s
  ends : bytes (p + s.length) = 0

def beforeDot (s : List UInt8) : List UInt8 := s.takeWhile (· ≠ dot)

def afterDot (s : List UInt8) : List UInt8 := (s.dropWhile (· ≠ dot)).drop 1

/-- The call splits the filename at its dot, and writes only to its arrays. -/
structure SplitsExactly (m : Memory) (filename : CharPtr) : Prop where
  name : IsString (splitFilenameIn m filename).bytes m.namePtrs.name
    ((beforeDot (cstr filename)).take 8)
  extension : IsString (splitFilenameIn m filename).bytes m.namePtrs.extension
    ((afterDot (cstr filename)).take 3)
  inside : ∀ a ∈ (splitFilenameIn m filename).written, m.currentBreak ≤ a ∧
    a < m.currentBreak + (8 + 3)

section Copying
variable {test : UInt8 → Bool} {source : CharPtr} {dest : Nat}

/-- The characters that a loop takes. -/
def taken (test : UInt8 → Bool) (source : CharPtr) (n : Nat) : List UInt8 :=
  (source.take n).takeWhile test

theorem taken_drop (h₀ : test 0 = false) (n j : Nat) : taken test (source.drop j) (n + 1) =
    if test (CharPtr.at source j) then
      CharPtr.at source j :: taken test (source.drop (j + 1)) n else [] := by
  by_cases hj : j < source.length
  · have hat : CharPtr.at source j = source[j] := List.getD_eq_getElem _ _ hj
    rw [taken, List.drop_eq_getElem_cons hj, List.take_succ_cons, List.takeWhile_cons, hat]
    rfl
  · have hat : CharPtr.at source j = 0 := List.getD_eq_default _ _ (by omega)
    rw [taken, List.drop_eq_nil_of_le (by omega), hat, h₀]
    rfl

/-- A loop stores the characters that it takes, and nothing else. -/
structure Copied (test : UInt8 → Bool) (source : CharPtr) (dest n j : Nat) (m : Writing)
    (r : Nat × Writing) : Prop where
  count : r.1 = j + (taken test (source.drop j) n).length
  bytes : ∀ a, r.2.bytes a =
    if dest + j ≤ a ∧ a < dest + r.1 then CharPtr.at source (a - dest) else m.bytes a
  written : ∀ a, a ∈ r.2.written ↔ dest + j ≤ a ∧ a < dest + r.1 ∨ a ∈ m.written

theorem copyWhile_copied (h₀ : test 0 = false) (n j : Nat) (m : Writing) :
    Copied test source dest n j m (copyWhile test source dest n j m) := by
  induction n generalizing j m with
  | zero =>
    refine ⟨by simp [copyWhile, taken], fun a => ?_, fun a => ?_⟩
    · rw [copyWhile, if_neg (by omega)]
    · rw [copyWhile]
      exact ⟨Or.inr, fun h => h.resolve_left (by omega)⟩
  | succ n ih =>
    rw [copyWhile]
    by_cases ht : test (CharPtr.at source j)
    · have h := ih (j + 1) (m.set (dest + j) (CharPtr.at source j))
      rw [if_pos ht]
      have hcount := h.count
      refine ⟨?_, fun a => ?_, fun a => ?_⟩
      · rw [hcount, taken_drop h₀, if_pos ht, List.length_cons]
        omega
      · rw [h.bytes, Writing.set_bytes]
        by_cases ha : a = dest + j
        · rw [if_neg (by omega), if_pos ha, if_pos (by omega), ha, Nat.add_sub_cancel_left]
        · rw [if_neg ha]
          refine if_congr ?_ rfl rfl
          omega
      · rw [h.written, Writing.mem_set, ← or_assoc]
        refine or_congr_left ?_
        omega
    · rw [if_neg ht]
      refine ⟨?_, fun a => ?_, fun a => ?_⟩
      · rw [taken_drop h₀, if_neg ht]
        rfl
      · rw [if_neg (by omega)]
      · exact ⟨Or.inr, fun h => h.resolve_left (by omega)⟩

end Copying

section Split
variable {m : Memory} {filename : CharPtr} {w : Writing}

theorem at_prefix {s t : List UInt8} (h : s <+: t) {k : Nat} (hk : k < s.length) :
    CharPtr.at s k = CharPtr.at t k := by
  obtain ⟨u, rfl⟩ := h
  exact (List.getD_append s u 0 k hk).symm

theorem nameChars_prefix : nameChars filename <+: filename :=
  (List.takeWhile_prefix _).trans (List.take_prefix 8 filename)

theorem at_end {s : List UInt8} {k : Nat} (hk : s.length ≤ k) : CharPtr.at s k = 0 :=
  List.getD_eq_default _ _ hk

/-- The array for the name, and behind it that for the extension. -/
theorem at_name (k : Nat) : CharPtr.at (splitFilename filename).name k =
    if k < 8 then CharPtr.at (nameChars filename) k
    else CharPtr.at (splitFilename filename).extension (k - 8) := by
  have hlen : (nameChars filename).length ≤ 8 := nameChars_length
  have hfill : (nameChars filename ++ List.replicate (8 - (nameChars filename).length) 0).length =
      8 := by
    rw [List.length_append, List.length_replicate]
    omega
  rw [name_eq]
  split_ifs with hk
  · rw [CharPtr.at, List.getD_append _ _ _ _ (by omega)]
    by_cases hi : k < (nameChars filename).length
    · exact List.getD_append _ _ _ _ hi
    · rw [List.getD_append_right _ _ _ _ (by omega), at_end (by omega)]
      simp
  · rw [CharPtr.at, List.getD_append_right _ _ _ _ (by omega), hfill]
    rfl

/-- What the call leaves in memory: the two parts, and zeros behind each. -/
structure SplitResult (m : Memory) (filename : CharPtr) (w : Writing) : Prop where
  bytes : ∀ k, w.bytes (m.currentBreak + k) = CharPtr.at (splitFilename filename).name k
  written : ∀ k, m.currentBreak + k ∈ w.written ↔
    (k < (nameChars filename).length ∨ k = (nameChars filename).length + 1) ∨
      if CharPtr.at filename (nameChars filename).length = 0 then k = 8
      else (8 ≤ k ∧ k < 8 + (splitFilename filename).extension.length ∨
        k = 8 + ((splitFilename filename).extension.length + 1))
  above : ∀ a ∈ w.written, m.currentBreak ≤ a

section Behind
variable (hbytes : ∀ k, w.bytes (m.currentBreak + k) = CharPtr.at (nameChars filename) k)
  (hwritten : ∀ a, a ∈ w.written ↔
    m.currentBreak ≤ a ∧ a < m.currentBreak + (nameChars filename).length)
include hbytes hwritten

/-- The filename ends with the name. -/
theorem splitExtension_none (hend : CharPtr.at filename (nameChars filename).length = 0) :
    SplitResult m filename
      (splitExtension filename m.namePtrs (nameChars filename).length w) := by
  have hlen : (nameChars filename).length ≤ 8 := nameChars_length
  have hext : (splitFilename filename).extension = [] := by rw [extension_eq, if_pos hend]
  simp only [splitExtension, Memory.namePtrs]
  rw [if_pos hend]
  refine ⟨fun k => ?_, fun k => ?_, fun a ha => ?_⟩
  · rw [Writing.set_bytes, Writing.set_bytes, hbytes, at_name, hext]
    split_ifs with h₈ h₁ hk
    · omega
    · rfl
    · exact (at_end (by omega)).symm
    · rfl
    · rfl
    · exact at_end (by omega)
  · rw [Writing.mem_set, Writing.mem_set, hwritten, if_pos hend]
    omega
  · rw [Writing.mem_set, Writing.mem_set, hwritten] at ha
    omega

/-- The filename goes on behind the name. -/
theorem splitExtension_some (hend : CharPtr.at filename (nameChars filename).length ≠ 0) :
    SplitResult m filename
      (splitExtension filename m.namePtrs (nameChars filename).length w) := by
  have hlen : (nameChars filename).length ≤ 8 := nameChars_length
  have hext := @copyWhile_copied (· ≠ 0) (filename.drop ((nameChars filename).length + 1))
    (m.currentBreak + 8) (by decide) 3 0
    (w.set (m.currentBreak + ((nameChars filename).length + 1)) 0)
  have htaken : taken (· ≠ 0) (filename.drop ((nameChars filename).length + 1)) 3 =
      (splitFilename filename).extension := by rw [extension_eq, if_neg hend, taken]
  have hprefix : (splitFilename filename).extension <+:
      filename.drop ((nameChars filename).length + 1) :=
    htaken ▸ (List.takeWhile_prefix _).trans (List.take_prefix 3 _)
  simp only [splitExtension, Memory.namePtrs]
  rw [if_neg hend]
  generalize copyWhile _ _ _ _ _ _ = r at hext ⊢
  obtain ⟨j, w'⟩ := r
  obtain rfl : j = (splitFilename filename).extension.length :=
    hext.count.trans (by rw [List.drop_zero, htaken, Nat.zero_add])
  refine ⟨fun k => ?_, fun k => ?_, fun a ha => ?_⟩
  · rw [Writing.set_bytes, hext.bytes, Writing.set_bytes, hbytes, at_name]
    dsimp only
    by_cases h₈ : k < 8
    · rw [if_neg (by omega), if_neg (by omega), if_pos h₈]
      split_ifs with h₁
      · exact (at_end (by omega)).symm
      · rfl
    · rw [if_neg h₈]
      by_cases hj : k - 8 < (splitFilename filename).extension.length
      · have hsub : m.currentBreak + k - (m.currentBreak + 8) = k - 8 := by omega
        rw [if_neg (by omega), if_pos (by omega), hsub, at_prefix hprefix hj]
      · rw [at_end (s := (splitFilename filename).extension) (by omega)]
        split_ifs
        · rfl
        · omega
        · rfl
        · exact at_end (by omega)
  · rw [Writing.mem_set, hext.written, Writing.mem_set, hwritten, if_neg hend]
    omega
  · rw [Writing.mem_set, hext.written, Writing.mem_set, hwritten] at ha
    omega

end Behind

theorem splitFilenameIn_result (hfresh : ∀ a, m.currentBreak ≤ a → m.bytes a = 0) :
    SplitResult m filename (splitFilenameIn m filename) := by
  have hname := @copyWhile_copied (fun c => c ≠ dot ∧ c ≠ 0) filename m.namePtrs.name (by decide)
    8 0 ⟨m.bytes, []⟩
  rw [splitFilenameIn]
  generalize copyWhile _ _ _ _ _ _ = r at hname ⊢
  obtain ⟨i, w⟩ := r
  obtain rfl : i = (nameChars filename).length := hname.count.trans (Nat.zero_add _)
  have hptr : m.namePtrs.name = m.currentBreak := rfl
  have hbytes : ∀ k, w.bytes (m.currentBreak + k) = CharPtr.at (nameChars filename) k := by
    intro k
    rw [hname.bytes, hptr]
    dsimp only
    by_cases hk : k < (nameChars filename).length
    · rw [if_pos (by omega), Nat.add_sub_cancel_left, at_prefix nameChars_prefix hk]
    · rw [if_neg (by omega), at_end (by omega)]
      exact hfresh _ (by omega)
  have hwritten : ∀ a, a ∈ w.written ↔
      m.currentBreak ≤ a ∧ a < m.currentBreak + (nameChars filename).length := by
    intro a
    rw [hname.written, hptr]
    simp
  by_cases hend : CharPtr.at filename (nameChars filename).length = 0
  · exact splitExtension_none hbytes hwritten hend
  · exact splitExtension_some hbytes hwritten hend

theorem IsString.unique {bytes : Nat → UInt8} {p : Nat} {s t : List UInt8}
    (hs : IsString bytes p s) (ht : IsString bytes p t) : s = t := by
  have hle : ∀ {s t : List UInt8}, IsString bytes p s → IsString bytes p t →
      t.length ≤ s.length := by
    intro s t hs ht
    by_contra hlt
    have hchar := ht.chars s.length (by omega)
    rw [hs.ends] at hchar
    exact ht.plain (hchar ▸ List.getElem_mem _)
  refine List.ext_getElem (le_antisymm (hle ht hs) (hle hs ht)) fun i hi hi' => ?_
  rw [← hs.chars i hi, ht.chars i hi']

theorem nameChars_eq : nameChars filename = (beforeDot (cstr filename)).take 8 := by
  rw [beforeDot, cstr, List.takeWhile_takeWhile, List.take_takeWhile, nameChars]
  simp

theorem cstr_drop {s : CharPtr} {n : Nat} (h : n ≤ (cstr s).length) :
    cstr (s.drop n) = (cstr s).drop n := by
  induction s generalizing n with
  | nil => simp [cstr]
  | cons c s ih =>
    cases n with
    | zero => rfl
    | succ n =>
      by_cases hc : c = 0
      · subst hc
        exact absurd h (by simp [cstr])
      · rw [cstr_cons_of_ne hc, List.length_cons] at h
        rw [cstr_cons_of_ne hc, List.drop_succ_cons, List.drop_succ_cons, ih (by omega)]

/-- A character of the filename is the NUL just in case the string ends there. -/
theorem at_eq_zero_iff {s : CharPtr} {i : Nat} (h : i ≤ (cstr s).length) :
    CharPtr.at s i = 0 ↔ (cstr s).length = i := by
  have hdrop := cstr_drop h
  have hhead : CharPtr.at s i = CharPtr.at (s.drop i) 0 := by
    rw [CharPtr.at, CharPtr.at, List.getD_eq_getElem?_getD, List.getD_eq_getElem?_getD,
      List.getElem?_drop, Nat.add_zero]
  have hlen : (cstr s).length = i ↔ cstr (s.drop i) = [] := by
    rw [hdrop, List.drop_eq_nil_iff]
    omega
  rw [hhead, hlen]
  cases s.drop i with
  | nil => exact iff_of_true rfl rfl
  | cons c t =>
    by_cases hc : c = 0
    · subst hc
      exact iff_of_true rfl (by simp [cstr])
    · rw [cstr_cons_of_ne hc]
      exact iff_of_false hc (List.cons_ne_nil _ _)

theorem at_zero_iff {s : List UInt8} (h : (0 : UInt8) ∉ s) : CharPtr.at s 0 = 0 ↔ s = [] := by
  cases s with
  | nil => exact iff_of_true rfl rfl
  | cons c s => exact iff_of_false (fun hc : c = 0 => h (by simp [hc])) (List.cons_ne_nil _ _)

theorem beforeDot_length (s : List UInt8) :
    (beforeDot s).length + (s.dropWhile (· ≠ dot)).length = s.length := by
  rw [← List.length_append]
  exact congrArg List.length List.takeWhile_append_dropWhile

/-- A short name is followed by the extension. -/
theorem extension_short (h : (beforeDot (cstr filename)).length < 8) :
    (splitFilename filename).extension = (afterDot (cstr filename)).take 3 := by
  have hname : nameChars filename = beforeDot (cstr filename) := by
    rw [nameChars_eq, List.take_of_length_le (by omega)]
  have hsplit : beforeDot (cstr filename) ++ (cstr filename).dropWhile (· ≠ dot) = cstr filename :=
    List.takeWhile_append_dropWhile
  have hlen := beforeDot_length (cstr filename)
  rw [extension_eq, hname, afterDot]
  cases hrest : (cstr filename).dropWhile (· ≠ dot) with
  | nil =>
    rw [hrest, List.length_nil, Nat.add_zero] at hlen
    rw [if_pos ((at_eq_zero_iff hlen.le).mpr hlen.symm)]
    rfl
  | cons c rest =>
    rw [hrest] at hsplit hlen
    rw [List.length_cons] at hlen
    rw [if_neg fun h₀ => by
        have := (at_eq_zero_iff (by omega)).mp h₀
        omega, ← List.take_takeWhile]
    have hdrop : cstr (filename.drop ((beforeDot (cstr filename)).length + 1)) = rest := by
      have hcons : (beforeDot (cstr filename) ++ [c]) ++ rest = cstr filename := by
        rw [← List.append_cons, hsplit]
      have hleft : (beforeDot (cstr filename) ++ [c] ++ rest).drop
          ((beforeDot (cstr filename)).length + 1) = rest := List.drop_left' (List.length_append ..)
      rw [hcons] at hleft
      rw [cstr_drop (by omega), hleft]
    rw [cstr] at hdrop
    rw [hdrop]
    rfl

/-- Behind a name that fills its array, one character is skipped, whatever it is. -/
theorem extension_full_nil (hfull : (nameChars filename).length = 8)
    (h : 8 ≤ (cstr filename).length) :
    (splitFilename filename).extension = [] ↔ (cstr filename).length ≤ 9 := by
  rw [extension_eq, hfull, ← List.take_takeWhile]
  by_cases hend : (cstr filename).length = 8
  · rw [if_pos ((at_eq_zero_iff h).mpr hend)]
    exact iff_of_true rfl (by omega)
  · have hdrop : cstr (filename.drop (8 + 1)) = (cstr filename).drop (8 + 1) :=
      cstr_drop (by omega)
    rw [if_neg fun h₀ => hend ((at_eq_zero_iff h).mp h₀)]
    rw [cstr] at hdrop
    rw [hdrop, List.take_eq_nil_iff, List.drop_eq_nil_iff]
    omega

theorem name_isString (h : SplitResult m filename w) :
    IsString w.bytes m.currentBreak (nameChars filename) ↔
      (nameChars filename).length < 8 ∨ (splitFilename filename).extension = [] := by
  have hlen : (nameChars filename).length ≤ 8 := nameChars_length
  have hchars : ∀ i (hi : i < (nameChars filename).length),
      w.bytes (m.currentBreak + i) = (nameChars filename)[i] := by
    intro i hi
    rw [h.bytes, at_name, if_pos (by omega)]
    exact List.getD_eq_getElem _ _ hi
  have hend : w.bytes (m.currentBreak + (nameChars filename).length) = 0 ↔
      (nameChars filename).length < 8 ∨ (splitFilename filename).extension = [] := by
    rw [h.bytes, at_name]
    split_ifs with h₈
    · exact iff_of_true (at_end le_rfl) (Or.inl h₈)
    · rw [show (nameChars filename).length - 8 = 0 by omega, at_zero_iff extension_no_nul]
      exact (or_iff_right h₈).symm
  exact ⟨fun hs => hend.mp hs.ends, fun hc => ⟨hchars, nameChars_no_nul, hend.mpr hc⟩⟩

theorem extension_isString (h : SplitResult m filename w) :
    IsString w.bytes (m.currentBreak + 8) (splitFilename filename).extension := by
  have hbytes : ∀ i, w.bytes (m.currentBreak + 8 + i) =
      CharPtr.at (splitFilename filename).extension i := by
    intro i
    rw [Nat.add_assoc, h.bytes, at_name, if_neg (by omega), Nat.add_sub_cancel_left]
  refine ⟨fun i hi => ?_, extension_no_nul, ?_⟩
  · rw [hbytes]
    exact List.getD_eq_getElem _ _ hi
  · rw [hbytes]
    exact at_end le_rfl

theorem written_inside_iff (h : SplitResult m filename w) :
    (∀ a ∈ w.written, m.currentBreak ≤ a ∧ a < m.currentBreak + (8 + 3)) ↔
      (splitFilename filename).extension.length ≤ 1 := by
  have hlen : (nameChars filename).length ≤ 8 := nameChars_length
  constructor
  · intro hin
    by_contra hlong
    have hend : CharPtr.at filename (nameChars filename).length ≠ 0 := by
      intro hend
      rw [extension_eq, if_pos hend] at hlong
      exact hlong (Nat.zero_le 1)
    have hw := (h.written (8 + ((splitFilename filename).extension.length + 1))).mpr
      (by rw [if_neg hend]; exact Or.inr (Or.inr rfl))
    have := (hin _ hw).2
    omega
  · intro hshort a ha
    obtain ⟨k, rfl⟩ : ∃ k, a = m.currentBreak + k := ⟨_, (Nat.add_sub_of_le (h.above a ha)).symm⟩
    have hk := (h.written k).mp ha
    refine ⟨Nat.le_add_right _ _, ?_⟩
    split_ifs at hk <;> omega

/-- A filename is split as it should be, and inside the arrays, if and only if the name has at most
7 characters and the extension at most one, or the name fills its array and at most one character
follows. -/
theorem splits_exactly_iff (hfresh : ∀ a, m.currentBreak ≤ a → m.bytes a = 0) :
    SplitsExactly m filename ↔
      (beforeDot (cstr filename)).length ≤ 7 ∧ (afterDot (cstr filename)).length ≤ 1 ∨
        8 ≤ (beforeDot (cstr filename)).length ∧ (cstr filename).length ≤ 9 := by
  have h : SplitResult m filename (splitFilenameIn m filename) := splitFilenameIn_result hfresh
  have hname : nameChars filename = (beforeDot (cstr filename)).take 8 := nameChars_eq
  have hiff : SplitsExactly m filename ↔
      ((nameChars filename).length < 8 ∨ (splitFilename filename).extension = []) ∧
        (afterDot (cstr filename)).take 3 = (splitFilename filename).extension ∧
        (splitFilename filename).extension.length ≤ 1 := by
    rw [← name_isString h, ← written_inside_iff h]
    constructor
    · intro hs
      exact ⟨hname ▸ hs.name, hs.extension.unique (extension_isString h), hs.inside⟩
    · intro hs
      exact ⟨hname ▸ hs.1, hs.2.1 ▸ extension_isString h, hs.2.2⟩
  rw [hiff]
  by_cases hshort : (beforeDot (cstr filename)).length ≤ 7
  · have hlen : (nameChars filename).length < 8 := by
      rw [hname, List.length_take]
      omega
    rw [extension_short (by omega), List.length_take]
    constructor
    · intro hs
      exact Or.inl ⟨hshort, by omega⟩
    · intro hc
      exact ⟨Or.inl hlen, rfl, by omega⟩
  · have hlen := beforeDot_length (cstr filename)
    have hfull : (nameChars filename).length = 8 := by
      rw [hname, List.length_take]
      omega
    have hnil := extension_full_nil hfull (by omega)
    constructor
    · intro hs
      have hext := hs.1.resolve_left (by omega)
      exact Or.inr ⟨by omega, hnil.mp hext⟩
    · intro hc
      have hext := hnil.mpr (by omega)
      refine ⟨Or.inr hext, ?_, by simp [hext]⟩
      rw [hext, afterDot, List.drop_eq_nil_of_le (by omega)]
      rfl

end Split

section Examples

/-- Memory of zeros. -/
def blankMemory : Memory := ⟨fun _ => 0, 0x100⟩

/-- The filename `B.T`. -/
theorem shortNames_split : SplitsExactly blankMemory [0x42, 0x2e, 0x54] :=
  (splits_exactly_iff fun _ _ => rfl).mpr (by decide)

/-- For `B.TXT` the NUL behind the extension goes to the second byte behind the arrays, and with
`ABCDEFGH.T` the string at the first array is `ABCDEFGHT`. -/
theorem fullNames_not_split :
    0x100 + 12 ∈ (splitFilenameIn blankMemory [0x42, 0x2e, 0x54, 0x58, 0x54]).written ∧
    ¬ SplitsExactly blankMemory [0x42, 0x2e, 0x54, 0x58, 0x54] ∧
    ¬ SplitsExactly blankMemory [0x41, 0x42, 0x43, 0x44, 0x45, 0x46, 0x47, 0x48, 0x2e, 0x54] := by
  have hwritten : 0x100 + 12 ∈
    (splitFilenameIn blankMemory [0x42, 0x2e, 0x54, 0x58, 0x54]).written := by decide
  refine ⟨hwritten, fun h => absurd (h.inside _ hwritten).2 (by decide), fun h => ?_⟩
  exact absurd h.name.ends (by decide +kernel)

end Examples
end MalapropOS.Fat
