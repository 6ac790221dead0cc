import Mathlib.Data.Finset.Card
import Mathlib.Data.Finset.Range
import Mathlib.Data.Nat.Find
import Mathlib.Logic.Function.Iterate

/-! Walks along links. A walk goes on from place to place until it comes to one where it stops; over
finitely many places it stops within as many steps, or never. -/
namespace LinkWalk
variable {α β : Type*} {stop : α → Prop} {next : α → α}

/-- The walk from `a` comes to a place where it stops. -/
def Stops (stop : α → Prop) (next : α → α) (a : α) : Prop := ∃ n, stop (next^[n] a)

theorem not_stops_of_fixed {a : α} (hnext : next a = a) (ha : ¬ stop a) : ¬ Stops stop next a := by
  intro ⟨n, hn⟩
  rw [Function.iterate_fixed hnext] at hn
  exact ha hn

/-- A walk that stops does so before it comes to a place twice. -/
theorem Stops.within {a : α} (h : Stops stop next a) (places : Finset α)
    (hplaces : ∀ b, ¬ stop b → next b ∈ places) : ∃ n ≤ places.card, stop (next^[n] a) := by
  classical
  refine ⟨Nat.find h, ?_, Nat.find_spec h⟩
  by_contra hlt
  have hmaps : ∀ i ∈ Finset.range (Nat.find h), next^[i + 1] a ∈ places := by
    intro i hi
    rw [Function.iterate_succ_apply']
    exact hplaces _ (Nat.find_min h (Finset.mem_range.mp hi))
  obtain ⟨i, hi, j, hj, hne, heq⟩ := Finset.exists_ne_map_eq_of_card_lt_of_maps_to
    (by rw [Finset.card_range]; omega) hmaps
  rw [Finset.mem_range] at hi hj
  have hearlier {i j : Nat} (hj : j < Nat.find h) (hij : i < j)
      (heq : next^[i + 1] a = next^[j + 1] a) : False := by
    have hshift := congrArg next^[Nat.find h - (j + 1)] heq
    rw [← Function.iterate_add_apply, ← Function.iterate_add_apply, Nat.sub_add_cancel hj] at hshift
    exact Nat.find_min h (by omega) (hshift ▸ Nat.find_spec h)
  cases Nat.lt_or_gt_of_ne hne with
  | inl hij => exact hearlier hj hij heq
  | inr hji => exact hearlier hi hji heq.symm

section Walks
variable {walk : Nat → α → Option β} (hzero : ∀ a, walk 0 a = none)
  (hsucc : ∀ fuel a, (walk (fuel + 1) a).isSome ↔ stop a ∨ (walk fuel (next a)).isSome)
include hzero hsucc

theorem walk_isSome_iff {fuel : Nat} {a : α} :
    (walk fuel a).isSome ↔ ∃ n < fuel, stop (next^[n] a) := by
  induction fuel generalizing a with
  | zero => simp [hzero]
  | succ fuel ih =>
    rw [hsucc, ih]
    constructor
    · intro h
      cases h with
      | inl ha => exact ⟨0, by omega, ha⟩
      | inr hnext =>
        obtain ⟨n, hn, hstop⟩ := hnext
        exact ⟨n + 1, by omega, hstop⟩
    · intro ⟨n, hn, hstop⟩
      cases n with
      | zero => exact Or.inl hstop
      | succ n => exact Or.inr ⟨n, by omega, hstop⟩

/-- Some number of rounds is enough just in case the walk stops. -/
theorem exists_walk_isSome_iff {a : α} : (∃ fuel, (walk fuel a).isSome) ↔ Stops stop next a := by
  constructor
  · intro ⟨fuel, h⟩
    obtain ⟨n, -, hstop⟩ := (walk_isSome_iff hzero hsucc).mp h
    exact ⟨n, hstop⟩
  · intro ⟨n, hstop⟩
    exact ⟨n + 1, (walk_isSome_iff hzero hsucc).mpr ⟨n, by omega, hstop⟩⟩

/-- More rounds than there are places are always enough. -/
theorem walk_isSome_iff_stops {places : Finset α} (hplaces : ∀ b, ¬ stop b → next b ∈ places)
    {fuel : Nat} (hfuel : places.card < fuel) {a : α} :
    (walk fuel a).isSome ↔ Stops stop next a := by
  constructor
  · intro h
    exact (exists_walk_isSome_iff hzero hsucc).mp ⟨fuel, h⟩
  · intro h
    obtain ⟨n, hn, hstop⟩ := h.within places hplaces
    exact (walk_isSome_iff hzero hsucc).mpr ⟨n, by omega, hstop⟩

end Walks
end LinkWalk
