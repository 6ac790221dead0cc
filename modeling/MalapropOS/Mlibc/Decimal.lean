import Mathlib.Data.Nat.Digits.Lemmas
import MalapropOS.Shell.Editor

/-! `stdstring_int_to_str`. The digits come out of the number lowest first, and
`stdstring_reverse` turns the string round. The buffer is taken to be long enough. -/
namespace MalapropOS.Mlibc
open Function (update)
open Shell (Holds stdstringLength)

/-- An `int` stored into a `char`. -/
def toChar (x : Int32) : UInt8 := UInt8.ofInt x.toInt

/-- The loop of `stdstring_reverse`. -/
def reverseLoop (str : Nat → UInt8) (i j : Nat) : Nat → UInt8 :=
  if i < j then reverseLoop (update (update str i (str j)) j (str i)) (i + 1) (j - 1) else str
termination_by j - i

def stdstringReverse (str : Nat → UInt8) (h : ∃ len, str len = 0) : Nat → UInt8 :=
  reverseLoop str 0 (stdstringLength str h - 1)

theorem toInt_div_ten (n : Int32) : (n / 10).toInt = n.toInt.tdiv 10 :=
  Int32.toInt_div_of_ne_right n 10 (by decide)

theorem pos_of_div_ten_pos {n : Int32} (h : 0 < n / 10) : 0 ≤ n.toInt := by
  rw [Int32.lt_iff_toInt_lt, toInt_div_ten] at h
  by_contra hneg
  obtain ⟨m, hm⟩ : ∃ m, n.toInt = -m := ⟨-n.toInt, by omega⟩
  rw [hm, Int.neg_tdiv, Int.tdiv_eq_ediv_of_nonneg (by omega)] at h
  simp only [Int32.reduceToInt] at h
  omega

theorem toInt_div_ten_of_nonneg {n : Int32} (h : 0 ≤ n.toInt) : (n / 10).toInt = n.toInt / 10 := by
  rw [toInt_div_ten, Int.tdiv_eq_ediv_of_nonneg h]

theorem div_ten_pos_iff {n : Int32} (h : 0 ≤ n.toInt) : 0 < n / 10 ↔ 10 ≤ n.toInt := by
  rw [Int32.lt_iff_toInt_lt, toInt_div_ten_of_nonneg h]
  simp only [Int32.reduceToInt]
  omega

/-- The loop of `stdstring_int_to_str` from `str[ i ]` on, and where it has got to. -/
def putDigits (n : Int32) (str : Nat → UInt8) (i : Nat) : (Nat → UInt8) × Nat :=
  let str := update str i (toChar (n % 10 + 48))
  if 0 < n / 10 then putDigits (n / 10) str (i + 1) else (str, i + 1)
termination_by n.toInt.toNat
decreasing_by
  rename_i h
  have hn := pos_of_div_ten_pos h
  have hle := (div_ten_pos_iff hn).mp h
  rw [toInt_div_ten_of_nonneg hn]
  omega

def stdstringIntToStr (n : Int32) (str : Nat → UInt8) : Nat → UInt8 :=
  let sign := n
  let n := if n < 0 then -n else n
  let digits := putDigits n str 0
  let signed := if sign < 0 then (update digits.1 digits.2 0x2d, digits.2 + 1) else digits
  stdstringReverse (update signed.1 signed.2 0) ⟨signed.2, by simp⟩

section Reverse

theorem reverseLoop_apply (str : Nat → UInt8) (i j k : Nat) :
    reverseLoop str i j k = if i ≤ k ∧ k ≤ j then str (i + j - k) else str k := by
  induction str, i, j using reverseLoop.induct with
  | case1 str i j hij ih =>
    rw [reverseLoop, if_pos hij, ih]
    by_cases hi : k = i
    · rw [if_neg (by omega), if_pos (by omega), Function.update_of_ne (by omega), hi,
        Function.update_self, Nat.add_sub_cancel_left]
    · by_cases hj : k = j
      · rw [if_neg (by omega), if_pos (by omega), hj, Function.update_self, Nat.add_sub_cancel]
      · rw [Function.update_of_ne hj, Function.update_of_ne hi]
        by_cases hin : i ≤ k ∧ k ≤ j
        · have hk : i + 1 + (j - 1) - k = i + j - k := by omega
          rw [if_pos (by omega), if_pos hin, hk, Function.update_of_ne (by omega),
            Function.update_of_ne (by omega)]
        · rw [if_neg (by omega), if_neg hin]
  | case2 str i j hij =>
    rw [reverseLoop, if_neg hij]
    by_cases hin : i ≤ k ∧ k ≤ j
    · have hk : i + j - k = k := by omega
      rw [if_pos hin, hk]
    · rw [if_neg hin]

theorem holds_reverse {str : Nat → UInt8} {text : List UInt8} (h : Holds str text)
    (hz : ∃ len, str len = 0) : Holds (stdstringReverse str hz) text.reverse := by
  constructor
  · rw [List.mem_reverse]
    exact h.1
  · intro i hi
    rw [List.length_reverse] at hi
    rw [stdstringReverse, reverseLoop_apply, h.length hz]
    cases Nat.lt_or_eq_of_le hi with
    | inl hlt =>
      have hr : text.length - 1 - i < text.length := by omega
      rw [if_pos (by omega), Nat.zero_add, h.2 _ hr.le, List.getD_eq_getElem _ _ hr,
        List.getD_eq_getElem _ _ (by simpa using hlt), List.getElem_reverse]
    | inr heq =>
      have hend : (if 0 ≤ i ∧ i ≤ text.length - 1 then str (0 + (text.length - 1) - i) else str i) =
          str i := by
        split
        · have hi0 : 0 + (text.length - 1) - i = i := by omega
          rw [hi0]
        · rfl
      rw [hend, h.2 i hi, List.getD_eq_default _ _ heq.ge, List.getD_eq_default _ _ (by simp [heq])]

end Reverse

section Digits

/-- The digits of a number, lowest first. -/
def lowDigits (n : Nat) : List Nat := if n = 0 then [0] else Nat.digits 10 n

def digitChar (d : Nat) : UInt8 := UInt8.ofNat (d + 48)

/-- The buffer with the characters `l` at `str[ i ]`. -/
def put (str : Nat → UInt8) (i : Nat) (l : List UInt8) : Nat → UInt8 :=
  fun k => if i ≤ k ∧ k < i + l.length then l.getD (k - i) 0 else str k

theorem lowDigits_of_lt {n : Nat} (h : n < 10) : lowDigits n = [n] := by
  by_cases hn : n = 0
  · simp [lowDigits, hn]
  · rw [lowDigits, if_neg hn, Nat.digits_of_lt 10 n hn h]

theorem lowDigits_of_le {n : Nat} (h : 10 ≤ n) : lowDigits n = n % 10 :: lowDigits (n / 10) := by
  have hn : n ≠ 0 := by omega
  have hq : n / 10 ≠ 0 := by omega
  rw [lowDigits, if_neg hn, lowDigits, if_neg hq, Nat.digits_of_two_le_of_pos (by decide) (by omega)]

theorem toChar_digit {n : Int32} (h : 0 ≤ n.toInt) :
    toChar (n % 10 + 48) = digitChar (n.toInt.toNat % 10) := by
  have hmod : (n % 10).toInt = ((n.toInt.toNat % 10 : Nat) : Int) := by
    rw [Int32.toInt_mod, Int.tmod_eq_emod_of_nonneg h]
    simp only [Int32.reduceToInt]
    omega
  have hadd : (n % 10 + 48).toInt = ((n.toInt.toNat % 10 + 48 : Nat) : Int) := by
    rw [Int32.toInt_add, hmod]
    simp only [Int32.reduceToInt]
    rw [Int.bmod_eq_of_le (by omega) (by omega)]
    omega
  rw [toChar, hadd, digitChar, UInt8.ofInt, Int.emod_eq_of_lt (by omega) (by omega),
    Int.toNat_natCast]

theorem put_nil (str : Nat → UInt8) (i : Nat) : put str i [] = str := by
  funext k
  exact if_neg (by simp)

theorem put_cons (str : Nat → UInt8) (i : Nat) (c : UInt8) (l : List UInt8) :
    put (update str i c) (i + 1) l = put str i (c :: l) := by
  funext k
  by_cases hk : k = i
  · simp [put, hk]
  · by_cases hin : i + 1 ≤ k ∧ k < i + 1 + l.length
    · have hsucc : k - i = k - (i + 1) + 1 := by omega
      have hin' : i ≤ k ∧ k < i + (c :: l).length := by
        rw [List.length_cons]
        omega
      simp only [put]
      rw [if_pos hin, if_pos hin', hsucc, List.getD_cons_succ]
    · have hin' : ¬ (i ≤ k ∧ k < i + (c :: l).length) := by
        rw [List.length_cons]
        omega
      simp only [put]
      rw [if_neg hin, if_neg hin', Function.update_of_ne hk]

theorem putDigits_eq {n : Int32} (h : 0 ≤ n.toInt) (str : Nat → UInt8) (i : Nat) :
    putDigits n str i = (put str i ((lowDigits n.toInt.toNat).map digitChar),
      i + (lowDigits n.toInt.toNat).length) := by
  induction n, str, i using putDigits.induct with
  | case1 n str i str' hpos ih =>
    have hq := toInt_div_ten_of_nonneg h
    have hten := (div_ten_pos_iff h).mp hpos
    have hle : 10 ≤ n.toInt.toNat := by omega
    have hquot : (n / 10).toInt.toNat = n.toInt.toNat / 10 := by omega
    have hstr : str' = update str i (digitChar (n.toInt.toNat % 10)) :=
      congrArg (update str i) (toChar_digit h)
    rw [putDigits, if_pos hpos, ih (by omega), hquot, lowDigits_of_le hle, hstr, List.map_cons,
      put_cons, List.length_cons]
    simp [Nat.add_assoc, Nat.add_comm 1]
  | case2 n str i hpos =>
    have hten := (div_ten_pos_iff h).not.mp hpos
    have hlt : n.toInt.toNat < 10 := by omega
    rw [putDigits, if_neg hpos, lowDigits_of_lt hlt, toChar_digit h, Nat.mod_eq_of_lt hlt]
    rw [List.map_singleton, ← put_cons, put_nil]
    rfl

end Digits

section Numeral

/-- The digits, highest first, of the decimal numeral of `n` that has no needless zero in front. -/
structure IsNumeral (n : Int) (digits : List Nat) : Prop where
  nonempty : digits ≠ []
  digit : ∀ d ∈ digits, d < 10
  noLeadingZero : digits.head? = some 0 → digits = [0]
  value : (if n < 0 then -((Nat.ofDigits 10 digits.reverse : Nat) : Int)
    else (Nat.ofDigits 10 digits.reverse : Nat)) = n

/-- The characters of a numeral. -/
def numeralText (n : Int) (digits : List Nat) : List UInt8 :=
  (if n < 0 then [0x2d] else []) ++ digits.map digitChar

theorem lowDigits_reverse_isNumeral (n : Int) : IsNumeral n (lowDigits n.natAbs).reverse := by
  by_cases hn : n.natAbs = 0
  · rw [lowDigits, if_pos hn]
    obtain rfl := Int.natAbs_eq_zero.mp hn
    exact ⟨by simp, by simp, by simp, by simp⟩
  · have hlow : lowDigits n.natAbs = Nat.digits 10 n.natAbs := if_neg hn
    have hne : Nat.digits 10 n.natAbs ≠ [] := Nat.digits_ne_nil_iff_ne_zero.mpr hn
    rw [hlow]
    constructor
    · simpa using hne
    · intro d hd
      exact Nat.digits_lt_base (by decide) (List.mem_reverse.mp hd)
    · intro hz
      rw [List.head?_reverse, List.getLast?_eq_getLast_of_ne_nil hne, Option.some.injEq] at hz
      exact absurd hz (Nat.getLast_digit_ne_zero 10 hn)
    · rw [List.reverse_reverse]
      have hval := Nat.ofDigits_digits 10 n.natAbs
      split <;> omega

theorem toNat_digitChar {d : Nat} (h : d < 10) : (digitChar d).toNat = d + 48 := by
  have hlt : d + 48 < UInt8.size := by
    rw [UInt8.size]
    omega
  exact UInt8.toNat_ofNat_of_lt' hlt

theorem digitChar_ne_zero {d : Nat} (h : d < 10) : digitChar d ≠ 0 := by
  intro hz
  have hnat := congrArg UInt8.toNat hz
  rw [toNat_digitChar h] at hnat
  simp at hnat

theorem IsNumeral.zero_notMem {n : Int} {digits : List Nat} (h : IsNumeral n digits) :
    0 ∉ numeralText n digits := by
  intro hz
  rw [numeralText, List.mem_append] at hz
  cases hz with
  | inl hz => split at hz <;> simp at hz
  | inr hz =>
    obtain ⟨d, hd, hchar⟩ := List.mem_map.mp hz
    exact digitChar_ne_zero (h.digit d hd) hchar

/-- The magnitude of a number, as the code computes it. -/
theorem toInt_magnitude {n : Int32} (h : n ≠ Int32.minValue) :
    (if n < 0 then -n else n).toInt = n.toInt.natAbs := by
  have hlo := n.minValue_le_toInt
  have hne : n.toInt ≠ Int32.minValue.toInt := fun he => h (Int32.toInt.inj he)
  rw [Int32.toInt_minValue] at hlo hne
  have hlt : n < 0 ↔ n.toInt < 0 := Int32.lt_iff_toInt_lt
  by_cases hneg : n < 0
  · rw [if_pos hneg, Int32.toInt_neg]
    rw [hlt] at hneg
    rw [Int.bmod_eq_of_le (by omega) (by omega)]
    omega
  · rw [if_neg hneg]
    rw [hlt] at hneg
    omega

theorem holds_update_put (str : Nat → UInt8) {text : List UInt8} (h : 0 ∉ text) :
    Holds (update (put str 0 text) text.length 0) text := by
  refine ⟨h, fun i hi => ?_⟩
  cases Nat.lt_or_eq_of_le hi with
  | inl hlt =>
    rw [Function.update_of_ne (by omega)]
    simp [put, hlt]
  | inr heq => simp [heq]

theorem update_put (str : Nat → UInt8) (text : List UInt8) (c : UInt8) :
    update (put str 0 text) text.length c = put str 0 (text ++ [c]) := by
  funext k
  by_cases hk : k = text.length
  · simp [hk, put]
  · rw [Function.update_of_ne hk]
    simp only [put, List.length_append, List.length_singleton]
    by_cases hlt : k < text.length
    · rw [if_pos (by omega), if_pos (by omega), Nat.sub_zero, List.getD_append _ _ _ _ hlt]
    · rw [if_neg (by omega), if_neg (by omega)]

theorem stdstringIntToStr_holds {n : Int32} (h : n ≠ Int32.minValue) (str : Nat → UInt8) :
    Holds (stdstringIntToStr n str)
      (numeralText n.toInt (lowDigits n.toInt.natAbs).reverse) := by
  have hmag := toInt_magnitude h
  have hdigits := putDigits_eq (by rw [hmag]; omega) str 0
  have hlt : n < 0 ↔ n.toInt < 0 := Int32.lt_iff_toInt_lt
  have hzero := (lowDigits_reverse_isNumeral n.toInt).zero_notMem
  rw [hmag, Int.toNat_natCast, Nat.zero_add] at hdigits
  have hlen : (lowDigits n.toInt.natAbs).length =
      ((lowDigits n.toInt.natAbs).map digitChar).length := (List.length_map _).symm
  have hrev : numeralText n.toInt (lowDigits n.toInt.natAbs).reverse =
      ((lowDigits n.toInt.natAbs).map digitChar ++ if n < 0 then [0x2d] else []).reverse := by
    rw [numeralText, List.reverse_append, List.map_reverse]
    congr 1
    simp only [hlt]
    split <;> rfl
  rw [hrev, List.mem_reverse] at hzero
  rw [hrev]
  apply holds_reverse
  simp only [hdigits]
  by_cases hneg : n < 0
  · have hsucc (l : List UInt8) : l.length + 1 = (l ++ [0x2d]).length := by simp
    simp only [if_pos hneg] at hzero ⊢
    rw [hlen, update_put, hsucc]
    exact holds_update_put str hzero
  · simp only [if_neg hneg, List.append_nil] at hzero ⊢
    rw [hlen]
    exact holds_update_put str hzero

/-- The smallest number is its own negative: the loop stops behind one character, which is no
digit. -/
theorem stdstringIntToStr_minValue (str : Nat → UInt8) :
    Holds (stdstringIntToStr Int32.minValue str) [0x2d, 0x28] := by
  have hchar : toChar (Int32.minValue % 10 + 48) = 0x28 := by decide
  have hdigits : putDigits Int32.minValue str 0 = (put str 0 [0x28], 1) := by
    rw [putDigits, if_neg (by decide), hchar, ← put_cons, put_nil]
  have hput := update_put str [0x28] 0x2d
  have hholds := holds_update_put str (show (0 : UInt8) ∉ [0x28, 0x2d] by decide)
  simp only [List.length_singleton, List.singleton_append] at hput
  have hmag : (if Int32.minValue < 0 then -Int32.minValue else Int32.minValue) =
      Int32.minValue := by decide
  have hneg : Int32.minValue < 0 := by decide
  have hreverse : Holds (stdstringIntToStr Int32.minValue str) [0x28, 0x2d].reverse := by
    apply holds_reverse
    simp only [hmag, hdigits, if_pos hneg, hput]
    exact hholds
  exact hreverse

theorem holds_unique {str : Nat → UInt8} {text text' : List UInt8} (h : Holds str text)
    (h' : Holds str text') : text = text' := by
  have hz : ∃ len, str len = 0 := ⟨text.length, by rw [h.2 _ le_rfl]; simp⟩
  have hlen : text.length = text'.length := (h.length hz).symm.trans (h'.length hz)
  refine List.ext_getElem hlen fun i hi hi' => ?_
  have heq := (h.2 i hi.le).symm.trans (h'.2 i hi'.le)
  rwa [List.getD_eq_getElem _ _ hi, List.getD_eq_getElem _ _ hi'] at heq

theorem numeralText_ne_minValue {digits : List Nat} (h : IsNumeral Int32.minValue.toInt digits) :
    numeralText Int32.minValue.toInt digits ≠ [0x2d, 0x28] := by
  intro heq
  have hneg : Int32.minValue.toInt < 0 := by decide
  rw [numeralText, if_pos hneg, List.singleton_append, List.cons_inj_right] at heq
  have hmem : (0x28 : UInt8) ∈ digits.map digitChar := by simp [heq]
  obtain ⟨d, hd, hchar⟩ := List.mem_map.mp hmem
  have hnat := congrArg UInt8.toNat hchar
  rw [toNat_digitChar (h.digit d hd)] at hnat
  simp at hnat

/-- Every number but the smallest becomes its numeral. -/
theorem stdstringIntToStr_numeral_iff (n : Int32) (str : Nat → UInt8) :
    (∃ digits, IsNumeral n.toInt digits ∧
      Holds (stdstringIntToStr n str) (numeralText n.toInt digits)) ↔ n ≠ Int32.minValue := by
  constructor
  · intro ⟨digits, hdigits, hholds⟩ hmin
    subst hmin
    exact numeralText_ne_minValue hdigits
      (holds_unique hholds (stdstringIntToStr_minValue str))
  · intro h
    exact ⟨_, lowDigits_reverse_isNumeral n.toInt, stdstringIntToStr_holds h str⟩

/-- -2147483648 becomes a minus sign and a parenthesis. -/
theorem minValue_no_numeral : ¬ ∃ digits, IsNumeral (Int32.toInt (-2147483648)) digits ∧
    Holds (stdstringIntToStr (-2147483648) fun _ => 0)
      (numeralText (Int32.toInt (-2147483648)) digits) := by
  intro ⟨digits, hdigits, hholds⟩
  exact numeralText_ne_minValue hdigits
    (holds_unique hholds (stdstringIntToStr_minValue fun _ => 0))

end Numeral
end MalapropOS.Mlibc
