import MalapropOS.Lib.Horner
import MalapropOS.Mlibc.Decimal
import MalapropOS.Fat.Directory

/-! `stdstring_strtol`. A `char*` is the text from there on, the bytes behind the list are zero, and
`base` is not negative. `long` has 32 bits. -/
namespace MalapropOS.Mlibc
open Fat (CharPtr)
open Shell (Holds)

def isupper (c : UInt8) : Bool := 0x41 ≤ c.toNat ∧ c.toNat ≤ 0x5a

def isalpha (c : UInt8) : Bool := isupper c ∨ (0x61 ≤ c.toNat ∧ c.toNat ≤ 0x7a)

/-- The last of the four comparisons is with `'\12'`, which is the newline again. -/
def isspace (c : UInt8) : Bool := c = 0x20 ∨ c = 0x09 ∨ c = 0x0a ∨ c = 0x0a

def isdigit (c : UInt8) : Bool := 0x30 ≤ c.toNat ∧ c.toNat ≤ 0x39

/-- What the loop makes of a character; `none` is its first `break`. -/
def digitValue (c : UInt8) : Option Nat :=
  if isdigit c then some (c.toNat - 0x30)
  else if isalpha c then some (c.toNat - if isupper c then 0x41 - 10 else 0x61 - 10)
  else none

/-- The loop, from the character at the pointer on: where it ends, with `acc` and `any`. -/
def strtolLoop (base : Nat) (cutoff : UInt32) (cutlim : Nat) :
    CharPtr → UInt32 → Int → CharPtr × UInt32 × Int
  | [], acc, any => ([], acc, any)
  | c :: p, acc, any =>
    match digitValue c with
    | none => (c :: p, acc, any)
    | some d =>
      if base ≤ d then (c :: p, acc, any)
      else if any < 0 ∨ cutoff < acc ∨ (acc = cutoff ∧ cutlim < d) then
        strtolLoop base cutoff cutlim p acc (-1)
      else strtolLoop base cutoff cutlim p (acc * UInt32.ofNat base + UInt32.ofNat d) 1

/-- The sign, and the text behind it. -/
def readSign (p : CharPtr) : Bool × CharPtr :=
  if CharPtr.at p 0 = 0x2d then (true, p.drop 1)
  else if CharPtr.at p 0 = 0x2b then (false, p.drop 1)
  else (false, p)

/-- The base, and the text behind its prefix. -/
def readBase (base : Nat) (p : CharPtr) : Nat × CharPtr :=
  if (base = 0 ∨ base = 16) ∧ CharPtr.at p 0 = 0x30 ∧
      (CharPtr.at p 1 = 0x78 ∨ CharPtr.at p 1 = 0x58) then (16, p.drop 2)
  else if (base = 0 ∨ base = 2) ∧ CharPtr.at p 0 = 0x30 ∧
      (CharPtr.at p 1 = 0x62 ∨ CharPtr.at p 1 = 0x42) then (2, p.drop 2)
  else if base = 0 then (if CharPtr.at p 0 = 0x30 then 8 else 10, p)
  else (base, p)

/-- `-(unsigned long)LONG_MIN` or `LONG_MAX`. -/
def magnitudeLimit (neg : Bool) : UInt32 := if neg then 0x80000000 else 0x7fffffff

/-- The result, and what is stored at `endptr`. -/
def stdstringStrtol (nptr : CharPtr) (base : Nat) : Int32 × CharPtr :=
  let sign := readSign (nptr.dropWhile isspace)
  let radix := readBase base sign.2
  let limit := magnitudeLimit sign.1
  let r := strtolLoop radix.1 (limit / UInt32.ofNat radix.1) (limit.toNat % radix.1) radix.2 0 0
  let acc := if r.2.2 < 0 then limit else if sign.1 then -r.2.1 else r.2.1
  (acc.toInt32, if r.2.2 = 0 then nptr else r.1)

section Loop

def isDigitOf (base : Nat) (c : UInt8) : Bool := (digitValue c).any (· < base)

/-- The digits at the beginning of a text. -/
def digitsOf (base : Nat) (p : CharPtr) : List Nat :=
  (p.takeWhile (isDigitOf base)).filterMap digitValue

variable {base : Nat} {p : CharPtr}

theorem isDigitOf_iff {c : UInt8} : isDigitOf base c ↔ ∃ d, digitValue c = some d ∧ d < base := by
  simp [isDigitOf, Option.any_eq_true]

theorem digitsOf_cons {c : UInt8} {d : Nat} (hc : digitValue c = some d) (hd : d < base) :
    digitsOf base (c :: p) = d :: digitsOf base p := by
  have h : isDigitOf base c := isDigitOf_iff.mpr ⟨d, hc, hd⟩
  simp [digitsOf, h, hc]

theorem digitsOf_stop {c : UInt8} (h : ¬ isDigitOf base c) : digitsOf base (c :: p) = [] := by
  simp [digitsOf, h]

theorem strtolLoop_digit {cutoff acc : UInt32} {cutlim d : Nat} {any : Int} {c : UInt8}
    (hc : digitValue c = some d) (hd : d < base) : strtolLoop base cutoff cutlim (c :: p) acc any =
      if any < 0 ∨ cutoff < acc ∨ (acc = cutoff ∧ cutlim < d) then
        strtolLoop base cutoff cutlim p acc (-1)
      else strtolLoop base cutoff cutlim p (acc * UInt32.ofNat base + UInt32.ofNat d) 1 := by
  simp only [strtolLoop, hc, if_neg (Nat.not_le.mpr hd)]

theorem strtolLoop_stop {cutoff acc : UInt32} {cutlim : Nat} {any : Int} {c : UInt8}
    (h : ¬ isDigitOf base c) : strtolLoop base cutoff cutlim (c :: p) acc any =
      (c :: p, acc, any) := by
  rw [isDigitOf_iff] at h
  cases hc : digitValue c with
  | none => simp only [strtolLoop, hc]
  | some d =>
    have hd : base ≤ d := Nat.le_of_not_lt fun hlt => h ⟨d, hc, hlt⟩
    simp only [strtolLoop, hc, if_pos hd]

/-- The loop goes over all the digits, also behind an overflow. -/
theorem strtolLoop_end (cutoff : UInt32) (cutlim : Nat) (acc : UInt32) (any : Int) :
    (strtolLoop base cutoff cutlim p acc any).1 = p.dropWhile (isDigitOf base) := by
  induction p generalizing acc any with
  | nil => rfl
  | cons c p ih =>
    by_cases h : isDigitOf base c
    · obtain ⟨d, hc, hd⟩ := isDigitOf_iff.mp h
      rw [strtolLoop_digit hc hd, List.dropWhile_cons_of_pos h]
      split
      · exact ih _ _
      · exact ih _ _
    · rw [strtolLoop_stop h, List.dropWhile_cons_of_neg h]

theorem strtolLoop_overflowed (cutoff : UInt32) (cutlim : Nat) (acc : UInt32) :
    (strtolLoop base cutoff cutlim p acc (-1)).2 = (acc, -1) := by
  induction p with
  | nil => rfl
  | cons c p ih =>
    by_cases h : isDigitOf base c
    · obtain ⟨d, hc, hd⟩ := isDigitOf_iff.mp h
      rw [strtolLoop_digit hc hd, if_pos (Or.inl (by decide)), ih]
    · rw [strtolLoop_stop h]

variable (limit : UInt32) (hb : base ≤ 36)
include hb

/-- The test in front of a digit. -/
theorem cutoff_iff {acc : UInt32} {d : Nat} (hd : d < base) :
    (limit / UInt32.ofNat base < acc ∨
      (acc = limit / UInt32.ofNat base ∧ limit.toNat % base < d)) ↔
      limit.toNat < acc.toNat * base + d := by
  have hbase : (UInt32.ofNat base).toNat = base :=
    UInt32.toNat_ofNat_of_lt' (Nat.lt_of_le_of_lt hb (by decide))
  rw [Horner.limit_lt_iff hd, UInt32.lt_iff_toNat_lt, ← UInt32.toNat_inj, UInt32.toNat_div, hbase]

theorem toNat_accumulate {acc : UInt32} {d : Nat} (hd : d < base)
    (h : acc.toNat * base + d ≤ limit.toNat) :
    (acc * UInt32.ofNat base + UInt32.ofNat d).toNat = acc.toNat * base + d := by
  have hbase : (UInt32.ofNat base).toNat = base :=
    UInt32.toNat_ofNat_of_lt' (Nat.lt_of_le_of_lt hb (by decide))
  have hdigit : (UInt32.ofNat d).toNat = d :=
    UInt32.toNat_ofNat_of_lt' (Nat.lt_of_lt_of_le hd (Nat.le_trans hb (by decide)))
  have hlimit := limit.toNat_lt
  rw [UInt32.toNat_add, UInt32.toNat_mul, hbase, hdigit, Nat.mod_add_mod, Nat.mod_eq_of_lt (by omega)]

/-- `acc` is the number that the digits make, when that is within the limit. -/
theorem strtolLoop_within {acc : UInt32} {any : Int} (hany : 0 ≤ any)
    (h : Horner.value base acc.toNat (digitsOf base p) ≤ limit.toNat) :
    (strtolLoop base (limit / UInt32.ofNat base) (limit.toNat % base) p acc any).2 =
      (UInt32.ofNat (Horner.value base acc.toNat (digitsOf base p)),
        if digitsOf base p = [] then any else 1) := by
  induction p generalizing acc any with
  | nil => simp [strtolLoop, digitsOf, Horner.value]
  | cons c p ih =>
    by_cases hc : isDigitOf base c
    · obtain ⟨d, hc, hd⟩ := isDigitOf_iff.mp hc
      rw [digitsOf_cons hc hd, Horner.value_cons] at h ⊢
      have hle := Horner.le_value (Nat.zero_lt_of_lt hd) (acc.toNat * base + d) (digitsOf base p)
      have hnext := toNat_accumulate limit hb hd (hle.trans h)
      have hcut := (cutoff_iff limit hb hd).not.mpr (Nat.not_lt.mpr (hle.trans h))
      rw [strtolLoop_digit hc hd, if_neg (not_or.mpr ⟨Int.not_lt.mpr hany, hcut⟩),
        ih (by decide) (by rwa [hnext]), hnext]
      simp
    · rw [digitsOf_stop hc, strtolLoop_stop hc]
      simp [Horner.value]

/-- Past the limit `any` is -1 to the end. -/
theorem strtolLoop_past {acc : UInt32} {any : Int} (hany : 0 ≤ any) (hacc : acc.toNat ≤ limit.toNat)
    (h : limit.toNat < Horner.value base acc.toNat (digitsOf base p)) :
    (strtolLoop base (limit / UInt32.ofNat base) (limit.toNat % base) p acc any).2.2 = -1 := by
  induction p generalizing acc any with
  | nil => exact absurd hacc (Nat.not_le.mpr h)
  | cons c p ih =>
    by_cases hc : isDigitOf base c
    · obtain ⟨d, hc, hd⟩ := isDigitOf_iff.mp hc
      rw [digitsOf_cons hc hd, Horner.value_cons] at h
      have hcut : _ ↔ limit.toNat < acc.toNat * base + d := cutoff_iff limit hb hd
      rw [strtolLoop_digit hc hd]
      by_cases hover : limit.toNat < acc.toNat * base + d
      · rw [if_pos (Or.inr (hcut.mpr hover)), strtolLoop_overflowed]
      · have hnext := toNat_accumulate limit hb hd (Nat.le_of_not_lt hover)
        rw [if_neg (not_or.mpr ⟨Int.not_lt.mpr hany, hcut.not.mpr hover⟩)]
        exact ih (by decide) (by rw [hnext]; exact Nat.le_of_not_lt hover) (by rwa [hnext])
    · rw [digitsOf_stop hc] at h
      exact absurd hacc (Nat.not_le.mpr h)

end Loop

section Results

/-- The number that the text stands for, behind its spaces, sign and prefix. -/
def textNumber (nptr : CharPtr) (base : Nat) : Int :=
  let sign := readSign (nptr.dropWhile isspace)
  let radix := readBase base sign.2
  let v : Nat := Nat.ofDigits radix.1 (digitsOf radix.1 radix.2).reverse
  if sign.1 then -(v : Int) else v

/-- The text behind the digits, or all of it where there are none. -/
def textEnd (nptr : CharPtr) (base : Nat) : CharPtr :=
  let radix := readBase base (readSign (nptr.dropWhile isspace)).2
  if digitsOf radix.1 radix.2 = [] then nptr else radix.2.dropWhile (isDigitOf radix.1)

theorem readBase_le {base : Nat} (hb : base ≤ 36) (p : CharPtr) : (readBase base p).1 ≤ 36 := by
  simp only [readBase]
  split_ifs
  · exact Nat.le_of_ble_eq_true rfl
  · exact Nat.le_of_ble_eq_true rfl
  · exact Nat.le_of_ble_eq_true rfl
  · exact Nat.le_of_ble_eq_true rfl
  · exact hb

theorem toInt_negated {neg : Bool} {acc : UInt32} (h : acc.toNat ≤ (magnitudeLimit neg).toNat) :
    (if neg then -acc else acc).toInt32.toInt = if neg then -(acc.toNat : Int) else acc.toNat := by
  have hbmod (u : UInt32) : u.toInt32.toInt = Int.bmod u.toNat (2 ^ 32) :=
    BitVec.toInt_eq_toNat_bmod u.toBitVec
  cases neg with
  | true =>
    have hle : acc.toNat ≤ 2147483648 := h
    rw [if_pos rfl, if_pos rfl, hbmod, UInt32.toNat_neg]
    by_cases hz : acc.toNat = 0
    · simp [hz]
    · rw [Nat.mod_eq_of_lt (by simp only [UInt32.size]; omega), UInt32.size,
        Int.bmod_def]
      omega
  | false =>
    have hle : acc.toNat ≤ 2147483647 := h
    rw [if_neg (by decide), if_neg (by decide), hbmod, Int.bmod_eq_of_le (by omega) (by omega)]

/-- The number of the digits with their sign, or the end of the range of `long` that is next to it;
`any` is zero where there are no digits. -/
theorem strtolLoop_result {radix : Nat} (hbase : radix ≤ 36) (neg : Bool) (digits : CharPtr)
    {acc : UInt32} {any : Int}
    (hr : (strtolLoop radix (magnitudeLimit neg / UInt32.ofNat radix)
      ((magnitudeLimit neg).toNat % radix) digits 0 0).2 = (acc, any)) :
    (if any < 0 then magnitudeLimit neg else if neg then -acc else acc).toInt32.toInt =
        max Int32.minValue.toInt (min Int32.maxValue.toInt
          (if neg then -((Nat.ofDigits radix (digitsOf radix digits).reverse : Nat) : Int)
            else (Nat.ofDigits radix (digitsOf radix digits).reverse : Nat))) ∧
      (any = 0 ↔ digitsOf radix digits = []) := by
  have hvalue : Nat.ofDigits radix (digitsOf radix digits).reverse =
      Horner.value radix (0 : UInt32).toNat (digitsOf radix digits) := by
    rw [Horner.value_ofDigits, UInt32.toNat_zero, Nat.zero_mul, Nat.zero_add]
  rw [hvalue, Int32.toInt_minValue, Int32.toInt_maxValue]
  by_cases hin : Horner.value radix (0 : UInt32).toNat (digitsOf radix digits) ≤
      (magnitudeLimit neg).toNat
  · have hloop := strtolLoop_within (magnitudeLimit neg) hbase (le_refl 0) hin
    have hnat := UInt32.toNat_ofNat_of_lt' (Nat.lt_of_le_of_lt hin (magnitudeLimit neg).toNat_lt)
    have hacc := toInt_negated (hnat.trans_le hin)
    have hany : ¬ (if digitsOf radix digits = [] then (0 : Int) else 1) < 0 := by split <;> decide
    obtain ⟨rfl, rfl⟩ := Prod.ext_iff.mp (hr.symm.trans hloop)
    rw [if_neg hany, hacc, hnat]
    generalize Horner.value radix (0 : UInt32).toNat (digitsOf radix digits) = v at hin
    constructor
    · cases neg with
      | true =>
        have hle : v ≤ 2147483648 := hin
        simp only [if_true]
        omega
      | false =>
        have hle : v ≤ 2147483647 := hin
        simp only [Bool.false_eq_true, if_false]
        omega
    · simp
  · have hpast := strtolLoop_past (magnitudeLimit neg) hbase (le_refl 0) UInt32.zero_le
      (Nat.lt_of_not_le hin)
    have hsome : digitsOf radix digits ≠ [] := by
      intro hnil
      exact hin (hnil ▸ Nat.zero_le _)
    rw [hr] at hpast
    obtain rfl : any = -1 := hpast
    rw [if_pos (show (-1 : Int) < 0 by decide)]
    generalize Horner.value radix (0 : UInt32).toNat (digitsOf radix digits) = v at hin
    constructor
    · cases neg with
      | true =>
        have hlt : ¬ v ≤ 2147483648 := hin
        have hlimit : (magnitudeLimit true).toInt32.toInt = -2147483648 := rfl
        simp only [if_true]
        omega
      | false =>
        have hlt : ¬ v ≤ 2147483647 := hin
        have hlimit : (magnitudeLimit false).toInt32.toInt = 2147483647 := rfl
        simp only [Bool.false_eq_true, if_false]
        omega
    · simp [hsome]

/-- The result is the number, or the end of the range of `long` that is next to it. -/
theorem stdstringStrtol_clamps (nptr : CharPtr) {base : Nat} (hb : base ≤ 36) :
    (stdstringStrtol nptr base).1.toInt =
        max Int32.minValue.toInt (min Int32.maxValue.toInt (textNumber nptr base)) ∧
      (stdstringStrtol nptr base).2 = textEnd nptr base := by
  rcases hsign : readSign (nptr.dropWhile isspace) with ⟨neg, text⟩
  rcases hradix : readBase base text with ⟨radix, digits⟩
  have hbase : radix ≤ 36 := by
    have h := readBase_le hb text
    rwa [hradix] at h
  obtain ⟨hnumber, hany⟩ := strtolLoop_result hbase neg digits rfl
  simp only [stdstringStrtol, textNumber, textEnd, hsign, hradix, strtolLoop_end]
  refine ⟨hnumber, ?_⟩
  simp only [← hany]

/-- A number too big for a `long`, with more text behind it. -/
theorem strtol_past_the_end :
    (stdstringStrtol ([0x20, 0x2d] ++ List.replicate 11 0x39 ++ [0x2c]) 10).1.toInt = -2147483648 ∧
      (stdstringStrtol ([0x20, 0x2d] ++ List.replicate 11 0x39 ++ [0x2c]) 10).2 = [0x2c] := by
  obtain ⟨hnumber, hend⟩ :=
    stdstringStrtol_clamps ([0x20, 0x2d] ++ List.replicate 11 0x39 ++ [0x2c])
      (show 10 ≤ 36 by decide)
  have hvalue : textNumber ([0x20, 0x2d] ++ List.replicate 11 0x39 ++ [0x2c]) 10 = -99999999999 := by
    decide
  rw [hvalue] at hnumber
  exact ⟨hnumber.trans (by decide), hend.trans (by decide)⟩

end Results

section RoundTrip

theorem digitValue_digitChar {d : Nat} (h : d < 10) : digitValue (digitChar d) = some d := by
  have hdigit : isdigit (digitChar d) := by
    simp only [isdigit, toNat_digitChar h, decide_eq_true_eq]
    omega
  rw [digitValue, if_pos hdigit, toNat_digitChar h, Nat.add_sub_cancel]

theorem digitsOf_numeral {digits : List Nat} (h : ∀ d ∈ digits, d < 10) {tail : CharPtr}
    (htail : ¬ isDigitOf 10 (CharPtr.at tail 0)) :
    digitsOf 10 (digits.map digitChar ++ tail) = digits ∧
      (digits.map digitChar ++ tail).dropWhile (isDigitOf 10) = tail := by
  induction digits with
  | nil =>
    cases tail with
    | nil => exact ⟨rfl, rfl⟩
    | cons c tail => exact ⟨digitsOf_stop htail, List.dropWhile_cons_of_neg htail⟩
  | cons d digits ih =>
    obtain ⟨hd, hdigits⟩ := List.forall_mem_cons.mp h
    obtain ⟨ihdigits, ihtail⟩ := ih hdigits
    have hchar := digitValue_digitChar hd
    rw [List.map_cons, List.cons_append, digitsOf_cons hchar hd, ihdigits,
      List.dropWhile_cons_of_pos (isDigitOf_iff.mpr ⟨d, hchar, hd⟩)]
    exact ⟨rfl, ihtail⟩

/-- Neither a digit nor the minus sign is a space, and no digit is a sign. -/
theorem readSign_numeral {n : Int} {digits : List Nat} (h : IsNumeral n digits) (tail : CharPtr) :
    readSign ((numeralText n digits ++ tail).dropWhile isspace) =
      (decide (n < 0), digits.map digitChar ++ tail) := by
  by_cases hn : n < 0
  · rw [numeralText, if_pos hn, decide_eq_true hn]
    rfl
  · cases hdigits : digits with
    | nil => exact absurd hdigits h.nonempty
    | cons d ds =>
      have hd : d < 10 := h.digit d (by simp [hdigits])
      have hne (c : UInt8) (hc : c.toNat < 48) : digitChar d ≠ c := by
        intro he
        rw [← he, toNat_digitChar hd] at hc
        omega
      have hspace : ¬ isspace (digitChar d) := by
        simp [isspace, hne 0x20 (by decide), hne 0x09 (by decide), hne 0x0a (by decide)]
      rw [numeralText, if_neg hn, decide_eq_false hn, List.nil_append, List.map_cons,
        List.cons_append, List.dropWhile_cons_of_neg hspace]
      simp [readSign, CharPtr.at, hne 0x2d (by decide), hne 0x2b (by decide)]

/-- A numeral in decimal is read to its end. -/
theorem stdstringStrtol_numeral {n : Int32} {digits : List Nat} (h : IsNumeral n.toInt digits)
    {tail : CharPtr} (htail : ¬ isDigitOf 10 (CharPtr.at tail 0)) :
    stdstringStrtol (numeralText n.toInt digits ++ tail) 10 = (n, tail) := by
  obtain ⟨hdigits, hrest⟩ := digitsOf_numeral h.digit htail
  have hsign := readSign_numeral h tail
  have hbase (p : CharPtr) : readBase 10 p = (10, p) := by simp [readBase]
  obtain ⟨hvalue, hany⟩ := strtolLoop_result (show 10 ≤ 36 by decide) (decide (n.toInt < 0))
    (digits.map digitChar ++ tail) rfl
  have hnumber := h.value
  simp only [hdigits, decide_eq_true_eq, hnumber] at hvalue hany
  rw [min_eq_right n.toInt_le, max_eq_right n.minValue_le_toInt] at hvalue
  simp only [stdstringStrtol, hsign, hbase, strtolLoop_end, hrest]
  refine Prod.ext (Int32.toInt.inj ?_) (if_neg (hany.not.mpr h.nonempty))
  simpa only [decide_eq_true_eq] using hvalue

theorem holds_range {str : Nat → UInt8} {text : List UInt8} (h : Holds str text) {m : Nat}
    (hm : text.length < m) : ∃ rest, (List.range m).map str = text ++ 0 :: rest := by
  obtain ⟨k, rfl⟩ := Nat.exists_eq_add_of_lt hm
  have htext : (List.range text.length).map str = text := by
    apply List.ext_getElem (by simp)
    intro i hi hi'
    simpa [List.getElem?_eq_getElem hi'] using h.2 i hi'.le
  have hzero : str text.length = 0 := by simpa using h.2 text.length le_rfl
  rw [Nat.add_assoc, List.range_add, List.map_append, htext, List.range_succ_eq_map]
  exact ⟨_, by rw [List.map_cons, List.map_cons, Nat.add_zero, hzero]⟩

theorem numeralText_length (n : Int32) :
    (numeralText n.toInt (lowDigits n.toInt.natAbs).reverse).length ≤ 11 := by
  have hlo := n.minValue_le_toInt
  have hhi := n.toInt_le
  rw [Int32.toInt_minValue] at hlo
  rw [Int32.toInt_maxValue] at hhi
  have hdigits : (lowDigits n.toInt.natAbs).length ≤ 10 := by
    rw [lowDigits]
    split
    · exact Nat.le_of_ble_eq_true rfl
    · exact (Nat.digits_length_le_iff (by decide) _).mpr (by omega)
  rw [numeralText, List.length_append, List.length_map, List.length_reverse]
  have hsign : (if n.toInt < 0 then [(0x2d : UInt8)] else []).length ≤ 1 := by split <;> decide
  omega

end RoundTrip
end MalapropOS.Mlibc
