import Mathlib.Data.Nat.Digits.Lemmas
import Mathlib.Tactic.Ring

/-! Reading a numeral from its first digit on, with a limit that the number must not pass. The limit
divided by the base and the remainder tell before a digit is taken whether it would. -/
namespace Horner

/-- The number after the digits `ds`, when it was `v` before. -/
def value (b v : Nat) (ds : List Nat) : Nat := ds.foldl (fun v d => v * b + d) v

variable {b : Nat}

theorem value_cons (v d : Nat) (ds : List Nat) : value b v (d :: ds) = value b (v * b + d) ds := rfl

theorem value_ofDigits (v : Nat) (ds : List Nat) :
    value b v ds = v * b ^ ds.length + Nat.ofDigits b ds.reverse := by
  induction ds generalizing v with
  | nil => simp [value]
  | cons d ds ih =>
    rw [value_cons, ih, List.reverse_cons, Nat.ofDigits_append, List.length_reverse,
      List.length_cons, Nat.ofDigits_singleton]
    ring

/-- A further digit never makes the number smaller. -/
theorem le_value (hb : 0 < b) (v : Nat) (ds : List Nat) : v ≤ value b v ds := by
  induction ds generalizing v with
  | nil => exact le_rfl
  | cons d ds ih =>
    have hv : v ≤ v * b + d := (Nat.le_mul_of_pos_right v hb).trans (Nat.le_add_right _ _)
    exact hv.trans (ih _)

/-- The comparison with the quotient and the remainder of the limit. -/
theorem limit_lt_iff {d : Nat} (hd : d < b) (v limit : Nat) :
    limit < v * b + d ↔ limit / b < v ∨ (v = limit / b ∧ limit % b < d) := by
  have hdiv := Nat.div_add_mod' limit b
  have hmod := Nat.mod_lt limit (Nat.zero_lt_of_lt hd)
  obtain hlt | heq | hgt := Nat.lt_trichotomy v (limit / b)
  · have hm : (v + 1) * b ≤ limit / b * b := Nat.mul_le_mul_right b hlt
    rw [Nat.add_mul] at hm
    omega
  · subst heq
    omega
  · have hm : (limit / b + 1) * b ≤ v * b := Nat.mul_le_mul_right b hgt
    rw [Nat.add_mul] at hm
    omega

end Horner
