import Mathlib.Data.List.Nodup
import Mathlib.Logic.Function.Basic

/-! Tail queues, linked through their elements. A head points to the first element and knows the
place where the null pointer at the end is; an element points to the next one and knows the place
that points to it. -/
namespace TailQueue

/-- Where a pointer to an element is kept: in the head `h`, or in the element `a`. -/
inductive Place (H A : Type*) where
  | first (h : H)
  | next (a : A)
  deriving DecidableEq

structure Links (H A : Type*) where
  ref : Place H A → A
  last : H → Place H A
  prev : A → Place H A

section Operations
variable {H A : Type*} [DecidableEq H] [DecidableEq A] (null : A)

def init (m : Links H A) (h : H) : Links H A :=
  { m with ref := Function.update m.ref (.first h) null
           last := Function.update m.last h (.first h) }

def insertTail (m : Links H A) (h : H) (a : A) : Links H A :=
  let m := { m with ref := Function.update m.ref (.next a) null }
  let m := { m with prev := Function.update m.prev a (m.last h) }
  let m := { m with ref := Function.update m.ref (m.last h) a }
  { m with last := Function.update m.last h (.next a) }

def remove (m : Links H A) (h : H) (a : A) : Links H A :=
  let m := if m.ref (.next a) ≠ null then
      { m with prev := Function.update m.prev (m.ref (.next a)) (m.prev a) }
    else { m with last := Function.update m.last h (m.prev a) }
  { m with ref := Function.update m.ref (m.prev a) (m.ref (.next a)) }

end Operations

section Queues
variable {H A : Type*} (null : A)

/-- The elements `xs`, linked both ways from the place `p` to the null pointer at `q`. -/
def Linked (m : Links H A) : Place H A → List A → Place H A → Prop
  | p, [], q => m.ref p = null ∧ p = q
  | p, a :: xs, q => m.ref p = a ∧ a ≠ null ∧ m.prev a = p ∧ Linked m (.next a) xs q

/-- The queue at `h` consists of the elements `xs`. -/
structure IsQueue (m : Links H A) (h : H) (xs : List A) : Prop where
  linked : Linked null m (.first h) xs (m.last h)
  nodup : xs.Nodup

/-- The elements met on the way along the `next` pointers from `p` on. -/
def Elements (m : Links H A) : Place H A → List A → Prop
  | p, [] => m.ref p = null
  | p, a :: xs => m.ref p = a ∧ a ≠ null ∧ Elements m (.next a) xs

variable {null} {m m' : Links H A} {p q : Place H A} {h h' : H} {a : A} {xs ys : List A}

theorem Elements.unique (hx : Elements null m p xs) (hy : Elements null m p ys) : xs = ys := by
  induction xs generalizing p ys with
  | nil =>
    cases ys with
    | nil => rfl
    | cons b ys => exact absurd (hy.1.symm.trans hx) hy.2.1
  | cons a xs ih =>
    cases ys with
    | nil => exact absurd (hx.1.symm.trans hy) hx.2.1
    | cons b ys =>
      obtain rfl : a = b := hx.1.symm.trans hy.1
      rw [ih hx.2.2 hy.2.2]

theorem Linked.elements (hl : Linked null m p xs q) : Elements null m p xs := by
  induction xs generalizing p with
  | nil => exact hl.1
  | cons a xs ih => exact ⟨hl.1, hl.2.1, ih hl.2.2.2⟩

theorem Linked.end_mem (hl : Linked null m p xs q) : q = p ∨ ∃ x ∈ xs, q = .next x := by
  induction xs generalizing p with
  | nil => exact Or.inl hl.2.symm
  | cons a xs ih =>
    obtain rfl | ⟨x, hx, rfl⟩ := ih hl.2.2.2
    · exact Or.inr ⟨a, List.mem_cons_self, rfl⟩
    · exact Or.inr ⟨x, List.mem_cons_of_mem a hx, rfl⟩

theorem Linked.ne_null (hl : Linked null m p xs q) : ∀ x ∈ xs, x ≠ null := by
  induction xs generalizing p with
  | nil => simp
  | cons a xs ih => exact List.forall_mem_cons.mpr ⟨hl.2.1, ih hl.2.2.2⟩

/-- Only the pointers of the queue itself matter. -/
theorem Linked.congr (hl : Linked null m p xs q) (hp : m'.ref p = m.ref p)
    (hx : ∀ x ∈ xs, m'.ref (.next x) = m.ref (.next x) ∧ m'.prev x = m.prev x) :
    Linked null m' p xs q := by
  induction xs generalizing p with
  | nil => exact ⟨hp.trans hl.1, hl.2⟩
  | cons a xs ih =>
    obtain ⟨hn, hv⟩ := hx a List.mem_cons_self
    exact ⟨hp.trans hl.1, hl.2.1, hv.trans hl.2.2.1,
      ih hl.2.2.2 hn fun x hm => hx x (List.mem_cons_of_mem a hm)⟩

/-- An element behind the end. -/
theorem Linked.concat (hl : Linked null m p xs q) (hp : ∀ x ∈ xs, p ≠ .next x) (hn : xs.Nodup)
    (ha : a ≠ null) (hpa : p ≠ .next a) (hxa : a ∉ xs) (hq : m'.ref q = a)
    (hnext : m'.ref (.next a) = null) (hprev : m'.prev a = q)
    (href : ∀ r, r ≠ q → r ≠ .next a → m'.ref r = m.ref r)
    (hprevs : ∀ x, x ≠ a → m'.prev x = m.prev x) : Linked null m' p (xs ++ [a]) (.next a) := by
  induction xs generalizing p with
  | nil =>
    obtain rfl := hl.2
    exact ⟨hq, ha, hprev, hnext, rfl⟩
  | cons x xs ih =>
    obtain ⟨hx, hnx⟩ := List.nodup_cons.mp hn
    rw [List.mem_cons, not_or] at hxa
    have hpq : p ≠ q := by
      obtain rfl | ⟨y, hy, rfl⟩ := hl.2.2.2.end_mem
      · exact hp x List.mem_cons_self
      · exact hp y (List.mem_cons_of_mem x hy)
    refine ⟨(href p hpq hpa).trans hl.1, hl.2.1, (hprevs x (Ne.symm hxa.1)).trans hl.2.2.1, ?_⟩
    refine ih hl.2.2.2 (fun y hy he => ?_) hnx (fun he => hxa.1 (Place.next.inj he).symm) hxa.2
    exact hx (Place.next.inj he ▸ hy)

theorem IsQueue.ref_first (hq : IsQueue null m h xs) : m.ref (.first h) = xs.head?.getD null := by
  cases xs with
  | nil => exact hq.linked.1
  | cons a xs => exact hq.linked.1

theorem IsQueue.elements (hq : IsQueue null m h xs) : Elements null m (.first h) xs :=
  hq.linked.elements

variable [DecidableEq H] [DecidableEq A]

theorem isQueue_init (m : Links H A) (h : H) : IsQueue null (init null m h) h [] :=
  ⟨⟨by simp [init], by simp [init]⟩, List.nodup_nil⟩

theorem IsQueue.insertTail (hq : IsQueue null m h xs) (ha : a ≠ null) (hxa : a ∉ xs) :
    IsQueue null (insertTail null m h a) h (xs ++ [a]) := by
  refine ⟨?_, List.nodup_append'.mpr ⟨hq.nodup, List.nodup_singleton a, by simpa using hxa⟩⟩
  have hend : m.last h ≠ .next a := by
    obtain he | ⟨x, hx, he⟩ := hq.linked.end_mem
    · simp [he]
    · rw [he]
      exact fun h => hxa (Place.next.inj h ▸ hx)
  have hlast : (TailQueue.insertTail null m h a).last h = .next a := by simp [TailQueue.insertTail]
  rw [hlast]
  refine hq.linked.concat (by simp) hq.nodup ha (by simp) hxa ?_ ?_ ?_ (fun r h₁ h₂ => ?_)
    fun x hx => ?_
  · simp [TailQueue.insertTail]
  · simp [TailQueue.insertTail, Function.update_of_ne (Ne.symm hend)]
  · simp [TailQueue.insertTail]
  · simp [TailQueue.insertTail, Function.update_of_ne h₁, Function.update_of_ne h₂]
  · simp [TailQueue.insertTail, Function.update_of_ne hx]

/-- The other queue stays as it is. -/
theorem IsQueue.insertTail_other (hq : IsQueue null m h xs) (hq' : IsQueue null m h' ys)
    (hh : h ≠ h') (hxy : xs.Disjoint ys) (hya : a ∉ ys) :
    IsQueue null (TailQueue.insertTail null m h a) h' ys := by
  have hne (y : A) (hy : y ∈ ys) : y ≠ a := fun he => hya (he ▸ hy)
  have hfirst : m.last h ≠ .first h' := by
    obtain he | ⟨x, -, he⟩ := hq.linked.end_mem <;> simp [he, hh]
  have hnext (y : A) (hy : y ∈ ys) : m.last h ≠ .next y := by
    obtain he | ⟨x, hx, he⟩ := hq.linked.end_mem
    · simp [he]
    · rw [he]
      exact fun h => hxy hx (Place.next.inj h ▸ hy)
  refine ⟨?_, hq'.nodup⟩
  have hlast : (TailQueue.insertTail null m h a).last h' = m.last h' := by
    simp [TailQueue.insertTail, Function.update_of_ne (Ne.symm hh)]
  rw [hlast]
  refine hq'.linked.congr ?_ fun y hy => ⟨?_, ?_⟩
  · simp [TailQueue.insertTail, Function.update_of_ne (Ne.symm hfirst)]
  · simp [TailQueue.insertTail, Function.update_of_ne (Ne.symm (hnext y hy)), hne y hy]
  · simp [TailQueue.insertTail, hne y hy]

theorem IsQueue.remove (hq : IsQueue null m h (a :: xs)) : IsQueue null (remove null m h a) h xs := by
  obtain ⟨⟨-, -, hprev, hl⟩, hn⟩ := hq
  obtain ⟨ha, hn⟩ := List.nodup_cons.mp hn
  refine ⟨?_, hn⟩
  cases xs with
  | nil => simp [TailQueue.remove, Linked, hl.1, hprev]
  | cons y xs =>
    obtain ⟨hy, hnull, -, hl⟩ := hl
    obtain ⟨hyx, -⟩ := List.nodup_cons.mp hn
    have hya : a ≠ y := fun he => ha (he ▸ List.mem_cons_self)
    have hm : TailQueue.remove null m h a = { m with
        prev := Function.update m.prev y (.first h)
        ref := Function.update m.ref (.first h) y } := by
      simp [TailQueue.remove, hy, hnull, hprev, Function.update_of_ne hya]
    rw [hm]
    refine ⟨by simp, hnull, by simp, hl.congr (by simp) fun x hx => ⟨by simp, ?_⟩⟩
    have hxy : x ≠ y := fun he => hyx (he ▸ hx)
    simp [hxy]

theorem IsQueue.remove_other (hq : IsQueue null m h (a :: xs)) (hq' : IsQueue null m h' ys)
    (hh : h ≠ h') (hxy : (a :: xs).Disjoint ys) : IsQueue null (TailQueue.remove null m h a) h' ys := by
  obtain ⟨⟨-, -, hprev, hl⟩, hn⟩ := hq
  have hay : a ∉ ys := fun ha => hxy List.mem_cons_self ha
  refine ⟨?_, hq'.nodup⟩
  cases xs with
  | nil =>
    have hm : TailQueue.remove null m h a = { m with
        last := Function.update m.last h (.first h)
        ref := Function.update m.ref (.first h) null } := by
      simp [TailQueue.remove, hl.1, hprev]
    rw [hm]
    simp only [Function.update_of_ne (Ne.symm hh)]
    exact hq'.linked.congr (by simp [Ne.symm hh]) fun y _ => ⟨by simp, rfl⟩
  | cons b xs =>
    have hb : b ∉ ys := fun hb => hxy (by simp) hb
    have hab : a ≠ b := fun he => (List.nodup_cons.mp hn).1 (he ▸ List.mem_cons_self)
    have hm : TailQueue.remove null m h a = { m with
        prev := Function.update m.prev b (.first h)
        ref := Function.update m.ref (.first h) b } := by
      simp [TailQueue.remove, hl.1, hl.2.1, hprev, Function.update_of_ne hab]
    rw [hm]
    refine hq'.linked.congr (by simp [Ne.symm hh]) fun y hy => ⟨by simp, ?_⟩
    have hyb : y ≠ b := fun he => hb (he ▸ hy)
    simp [hyb]

end Queues
end TailQueue
