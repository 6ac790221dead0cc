import MalapropOS.Lib.Runs

/-! Two levels of a partial machine in lockstep: either both have a result or neither has, and
results are related. -/
namespace Lockstep
variable {α β γ δ : Type*} {R : α → β → Prop} {T : γ → δ → Prop} {x : Option α} {y : Option β}

theorem bind {f : α → Option γ} {g : β → Option δ} (h : Option.Rel R x y)
    (hf : ∀ a b, R a b → Option.Rel T (f a) (g b)) : Option.Rel T (x.bind f) (y.bind g) := by
  cases h with
  | some hab => exact hf _ _ hab
  | none => exact .none

/-- A step that only the first level can fail to take, and does take. -/
theorem bind_left {f : α → Option γ} {a : α} {z : Option δ} (h : x = some a)
    (hf : Option.Rel T (f a) z) : Option.Rel T (x.bind f) z := by
  rw [h]
  exact hf

theorem exists_left {b : β} (h : Option.Rel R x (some b)) : ∃ a, x = some a ∧ R a b := by
  cases h with
  | some hab => exact ⟨_, rfl, hab⟩

theorem mono {R' : α → β → Prop} (h : Option.Rel R x y) (hr : ∀ a b, R a b → R' a b) :
    Option.Rel R' x y := by
  cases h with
  | some hab => exact .some (hr _ _ hab)
  | none => exact .none

section Traces
variable {σ τ ι κ ο : Type*}

/-- A run with what each step gives out. -/
def trace (step : σ → ι → Option (σ × ο)) : List ι → σ → Option (σ × List ο)
  | [], s => some (s, [])
  | i :: is, s => (step s i).bind fun r => (trace step is r.1).map fun q => (q.1, r.2 :: q.2)

theorem trace_append {step : σ → ι → Option (σ × ο)} {is js : List ι} {s : σ}
    (h : (trace step (is ++ js) s).isSome) :
    ∃ r, trace step is s = some r ∧ (trace step js r.1).isSome := by
  induction is generalizing s with
  | nil => exact ⟨_, rfl, h⟩
  | cons i is ih =>
    rw [List.cons_append, trace] at h
    cases hr : step s i with
    | none =>
      rw [hr] at h
      cases h
    | some r =>
      rw [hr, Option.bind_some, Option.isSome_map] at h
      obtain ⟨q, hq, hrest⟩ := ih h
      exact ⟨(q.1, r.2 :: q.2), by rw [trace, hr, Option.bind_some, hq]; rfl, hrest⟩

/-- Levels that take each step in lockstep and give out the same take every run so. -/
theorem trace_rel {step : σ → ι → Option (σ × ο)} {step' : τ → κ → Option (τ × ο)} {g : ι → κ}
    {R : σ → τ → Prop} (hstep : ∀ s t i, R s t →
      Option.Rel (fun a b => R a.1 b.1 ∧ a.2 = b.2) (step s i) (step' t (g i)))
    (is : List ι) {s : σ} {t : τ} (h : R s t) :
    Option.Rel (fun a b => R a.1 b.1 ∧ a.2 = b.2) (trace step is s) (trace step' (is.map g) t) := by
  induction is generalizing s t with
  | nil => exact .some ⟨h, rfl⟩
  | cons i is ih =>
    refine bind (hstep s t i h) fun a b hab => ?_
    simp only [Option.map_eq_bind]
    exact bind (ih hab.1) fun c d hcd => .some ⟨hcd.1, by simp [hab.2, hcd.2]⟩

end Traces
end Lockstep
