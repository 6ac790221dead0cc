import Mathlib.Data.List.Basic

/-! Partial machines. A step may have no result; a run is over as soon as one step
has none. The rules below carry a property of states along every run, and along
every run whose steps all meet a guard. -/
namespace PartialMachine
variable {σ ι : Type*}

def run (step : σ → ι → Option σ) : List ι → σ → Option σ
  | [], s => some s
  | i :: is, s => (step s i).bind (run step is)

/-- Every step that the run takes meets the guard in the state it starts from. -/
def Along (step : σ → ι → Option σ) (guard : σ → ι → Prop) : List ι → σ → Prop
  | [], _ => True
  | i :: is, s => guard s i ∧ ∀ t, step s i = some t → Along step guard is t

/-- Some step of the run is an `event` in the state that the run has reached by then. -/
def Took (step : σ → ι → Option σ) (event : σ → ι → Prop) (is : List ι) (s : σ) : Prop :=
  ∃ before i after t, is = before ++ i :: after ∧ run step before s = some t ∧ event t i

variable {step : σ → ι → Option σ} {guard : σ → ι → Prop}

theorem run_cons {i : ι} {is : List ι} {s u : σ} (h : run step (i :: is) s = some u) :
    ∃ t, step s i = some t ∧ run step is t = some u :=
  Option.bind_eq_some_iff.mp h

theorem run_append {is js : List ι} {s u : σ} (h : run step (is ++ js) s = some u) :
    ∃ t, run step is s = some t ∧ run step js t = some u := by
  induction is generalizing s with
  | nil => exact ⟨s, rfl, h⟩
  | cons i is ih =>
    obtain ⟨t, hi, ht⟩ := run_cons h
    obtain ⟨v, hv, hu⟩ := ih ht
    exact ⟨v, by simp [run, hi, hv], hu⟩

theorem along_append {is js : List ι} {s t : σ} (h : Along step guard (is ++ js) s)
    (hr : run step is s = some t) : Along step guard is s ∧ Along step guard js t := by
  induction is generalizing s with
  | nil =>
    obtain rfl : s = t := Option.some.inj hr
    exact ⟨trivial, h⟩
  | cons i is ih =>
    obtain ⟨v, hi, ht⟩ := run_cons hr
    refine ⟨⟨h.1, fun w hw => ?_⟩, (ih (h.2 v hi) ht).2⟩
    obtain rfl : v = w := Option.some.inj (hi.symm.trans hw)
    exact (ih (h.2 v hi) ht).1

/-- A property that guarded steps preserve holds at the end of every guarded run. -/
theorem along_invariant (inv : σ → Prop)
    (hstep : ∀ s i t, guard s i → inv s → step s i = some t → inv t)
    {is : List ι} {s t : σ} (hg : Along step guard is s) (hs : inv s)
    (hr : run step is s = some t) : inv t := by
  induction is generalizing s with
  | nil => simpa [run] using (Option.some.inj hr) ▸ hs
  | cons i is ih =>
    obtain ⟨v, hi, ht⟩ := run_cons hr
    exact ih (hg.2 v hi) (hstep s i v hg.1 hs hi) ht

/-- A guarded run gets to its end where guarded steps have results, with the property. -/
theorem along_reaches (inv : σ → Prop)
    (hstep : ∀ s i, guard s i → inv s → ∃ t, step s i = some t ∧ inv t)
    {is : List ι} {s : σ} (hg : Along step guard is s) (hs : inv s) :
    ∃ t, run step is s = some t ∧ inv t := by
  induction is generalizing s with
  | nil => exact ⟨s, rfl, hs⟩
  | cons i is ih =>
    obtain ⟨t, hi, ht⟩ := hstep s i hg.1 hs
    obtain ⟨u, hu, hinv⟩ := ih (hg.2 t hi) ht
    exact ⟨u, by simp [run, hi, hu], hinv⟩

theorem Along.mono {guard' : σ → ι → Prop} (hg : ∀ s i, guard s i → guard' s i) {is : List ι}
    {s : σ} (h : Along step guard is s) : Along step guard' is s := by
  induction is generalizing s with
  | nil => trivial
  | cons i is ih => exact ⟨hg s i h.1, fun t ht => ih (h.2 t ht)⟩

theorem Along.and {guard' : σ → ι → Prop} {is : List ι} {s : σ} (h : Along step guard is s)
    (h' : Along step guard' is s) : Along step (fun s i => guard s i ∧ guard' s i) is s := by
  induction is generalizing s with
  | nil => trivial
  | cons i is ih => exact ⟨⟨h.1, h'.1⟩, fun t ht => ih (h.2 t ht) (h'.2 t ht)⟩

theorem along_left {is js : List ι} {s : σ} (h : Along step guard (is ++ js) s) :
    Along step guard is s := by
  induction is generalizing s with
  | nil => trivial
  | cons i is ih => exact ⟨h.1, fun t ht => ih (h.2 t ht)⟩

/-- A guard that the inputs meet in every state. -/
theorem along_of_inputs {is : List ι} (h : ∀ i ∈ is, ∀ s, guard s i) (s : σ) :
    Along step guard is s := by
  induction is generalizing s with
  | nil => trivial
  | cons i is ih => exact ⟨h i (by simp) s, fun t _ => ih (fun j hj => h j (by simp [hj])) t⟩

/-- A guard that an invariant of all steps gives is met along every run. -/
theorem along_of_invariant (inv : σ → Prop)
    (hstep : ∀ s i t, inv s → step s i = some t → inv t) (hguard : ∀ s i, inv s → guard s i)
    {is : List ι} {s : σ} (hs : inv s) : Along step guard is s := by
  induction is generalizing s with
  | nil => trivial
  | cons i is ih => exact ⟨hguard s i hs, fun t ht => ih (hstep s i t hs ht)⟩

/-- A property that never comes back is held to the end just in case every step meets the guard,
when the first step that misses the guard loses it. -/
theorem final_iff_along (base inv good : σ → Prop)
    (hbase : ∀ s i t, base s → step s i = some t → base t) (hinv : ∀ s, inv s → base s)
    (hstep : ∀ s i t, guard s i → inv s → step s i = some t → inv t)
    (hgood : ∀ s, inv s → good s)
    (hback : ∀ s i t, base s → step s i = some t → good t → good s)
    (hlost : ∀ s i t, ¬ guard s i → inv s → step s i = some t → ¬ good t)
    {is : List ι} {s t : σ} (hs : inv s) (hr : run step is s = some t) :
    good t ↔ Along step guard is s := by
  have hfirst {is : List ι} {s : σ} (hs : base s) (hr : run step is s = some t)
      (ht : good t) : good s := by
    induction is generalizing s with
    | nil => exact (Option.some.inj hr) ▸ ht
    | cons i is ih =>
      obtain ⟨v, hv, hrest⟩ := run_cons hr
      exact hback s i v hs hv (ih (hbase s i v hs hv) hrest)
  constructor
  · intro ht
    induction is generalizing s with
    | nil => trivial
    | cons i is ih =>
      obtain ⟨v, hv, hrest⟩ := run_cons hr
      have hg : guard s i := by
        by_contra hg
        exact hlost s i v hg hs hv (hfirst (hbase s i v (hinv s hs) hv) hrest ht)
      refine ⟨hg, fun w hw => ?_⟩
      obtain rfl := Option.some.inj (hv.symm.trans hw)
      exact ih (hstep s i v hg hs hv) hrest
  · intro hg
    exact hgood t (along_invariant inv hstep hg hs hr)

/-- A property that steps preserve holds at the end of every run. -/
theorem run_invariant (inv : σ → Prop)
    (hstep : ∀ s i t, inv s → step s i = some t → inv t)
    {is : List ι} {s t : σ} (hs : inv s) (hr : run step is s = some t) : inv t :=
  along_invariant inv (fun s i t _ => hstep s i t)
    (along_of_inputs (fun _ _ _ => trivial) s : Along step (fun _ _ => True) is s) hs hr

theorem not_took_nil {event : σ → ι → Prop} (s : σ) : ¬ Took step event [] s := by
  rintro ⟨before, i, after, t, h, -, -⟩
  simp at h

theorem took_cons {event : σ → ι → Prop} {i : ι} {is : List ι} {s t : σ}
    (h : step s i = some t) : Took step event (i :: is) s ↔ event s i ∨ Took step event is t := by
  constructor
  · intro ⟨before, j, after, u, hsplit, hr, he⟩
    cases before with
    | nil =>
      obtain ⟨rfl, rfl⟩ := List.cons.inj hsplit
      obtain rfl : s = u := Option.some.inj hr
      exact Or.inl he
    | cons b before =>
      obtain ⟨rfl, rfl⟩ := List.cons.inj hsplit
      obtain ⟨v, hv, hu⟩ := run_cons hr
      obtain rfl : t = v := Option.some.inj (h.symm.trans hv)
      exact Or.inr ⟨before, j, after, u, rfl, hu, he⟩
  · rintro (he | ⟨before, j, after, u, rfl, hr, he⟩)
    · exact ⟨[], i, is, s, rfl, rfl, he⟩
    · exact ⟨i :: before, j, after, u, rfl, by simp [run, h, hr], he⟩

/-- What each step records exactly, a run records exactly. -/
theorem run_records (inv recorded : σ → Prop) {event : σ → ι → Prop}
    (hstep : ∀ s i t, inv s → step s i = some t → inv t ∧ (recorded t ↔ recorded s ∨ event s i))
    {is : List ι} {s t : σ} (hs : inv s) (hr : run step is s = some t) :
    recorded t ↔ recorded s ∨ Took step event is s := by
  induction is generalizing s with
  | nil =>
    obtain rfl : s = t := Option.some.inj hr
    simp [not_took_nil]
  | cons i is ih =>
    obtain ⟨v, hv, hu⟩ := run_cons hr
    obtain ⟨hinv, hrec⟩ := hstep s i v hs hv
    rw [ih hinv hu, hrec, took_cons hv, or_assoc]

end PartialMachine
