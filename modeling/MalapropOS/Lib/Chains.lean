import Mathlib.Data.List.Nodup

/-! Linked chains: the elements that a successor function visits from a start to an end. -/
namespace LinkedChain
variable {α : Type*} {next next' : α → α} {c e : α} {l m : List α}

/-- From `c` through the elements of `l`, in order, to `e`. -/
def Path (next : α → α) : α → List α → α → Prop
  | c, [], e => c = e
  | c, a :: l, e => a = c ∧ Path next (next a) l e

theorem path_append : Path next c (l ++ m) e ↔ ∃ b, Path next c l b ∧ Path next b m e := by
  induction l generalizing c with
  | nil => simp [Path]
  | cons a l ih =>
    simp only [List.cons_append, Path, ih]
    exact ⟨fun ⟨ha, b, hb⟩ => ⟨b, ⟨ha, hb.1⟩, hb.2⟩, fun ⟨b, ⟨ha, hb⟩, hm⟩ => ⟨ha, b, hb, hm⟩⟩

theorem path_concat {z : α} : Path next c (l ++ [z]) e ↔ Path next c l z ∧ next z = e := by
  simp only [path_append, Path]
  constructor
  · rintro ⟨b, hb, rfl, he⟩
    exact ⟨hb, he⟩
  · intro ⟨hb, he⟩
    exact ⟨z, hb, rfl, he⟩

/-- A path depends on the successors of its own elements only. -/
theorem Path.congr (h : Path next c l e) (hn : ∀ a ∈ l, next' a = next a) : Path next' c l e := by
  induction l generalizing c with
  | nil => exact h
  | cons a l ih =>
    refine ⟨h.1, ?_⟩
    rw [hn a List.mem_cons_self]
    exact ih h.2 fun b hb => hn b (List.mem_cons_of_mem a hb)

/-- A path inside a set is part of the one that leads out of it. -/
theorem Path.isPrefix (inside : α → Prop) {e' : α} {l' : List α} (h : Path next c l e)
    (h' : Path next c l' e') (hl : ∀ a ∈ l, inside a) (he' : ¬ inside e') : l <+: l' := by
  induction l generalizing c l' with
  | nil => exact List.nil_prefix
  | cons a l ih =>
    cases l' with
    | nil => exact absurd (hl a List.mem_cons_self) (h.1 ▸ (show c = e' from h') ▸ he')
    | cons b l' =>
      obtain ⟨rfl, h⟩ := h
      obtain ⟨rfl, h'⟩ := h'
      exact List.cons_prefix_cons.mpr
        ⟨rfl, ih h h' fun x hx => hl x (List.mem_cons_of_mem _ hx)⟩

/-- The path from a start to the first element outside a set is unique. -/
theorem Path.unique (inside : α → Prop) {e' : α} {l' : List α} (h : Path next c l e)
    (h' : Path next c l' e') (hl : ∀ a ∈ l, inside a) (hl' : ∀ a ∈ l', inside a)
    (he : ¬ inside e) (he' : ¬ inside e') : l = l' :=
  (Path.isPrefix inside h h' hl he').eq_of_length_le
    (Path.isPrefix inside h' h hl' he).length_le

/-- A path that leads out of a set goes through no element twice. -/
theorem Path.nodup (inside : α → Prop) (h : Path next c l e) (hl : ∀ a ∈ l, inside a)
    (he : ¬ inside e) : l.Nodup := by
  induction l generalizing c with
  | nil => exact List.nodup_nil
  | cons a l ih =>
    have hin : ∀ b ∈ l, inside b := fun b hb => hl b (List.mem_cons_of_mem _ hb)
    refine List.nodup_cons.mpr ⟨fun ha => ?_, ih h.2 hin⟩
    -- from the second `a` on the path would be both long and short
    obtain ⟨q, r, rfl⟩ := List.append_of_mem ha
    obtain ⟨b, -, hb⟩ := path_append.mp h.2
    have hr : Path next c (a :: r) e := ⟨h.1, hb.2⟩
    have hsame := Path.unique inside h hr hl
      (fun x hx => hl x (by simp only [List.mem_cons, List.mem_append] at hx ⊢; tauto)) he he
    have := congrArg List.length hsame
    simp only [List.length_cons, List.length_append] at this
    omega

/-- Each element of a path has the next one, or the end, as its successor. -/
theorem Path.next_getElem (h : Path next c l e) (i : Nat) (hi : i < l.length) :
    next l[i] = (l ++ [e]).getD (i + 1) e := by
  induction l generalizing c i with
  | nil => simp at hi
  | cons a l ih =>
    cases i with
    | zero =>
      cases l with
      | nil => exact h.2
      | cons b l => exact h.2.1.symm
    | succ i => exact ih h.2 i (by simpa using hi)

/-- The path goes on behind each of its elements. -/
theorem Path.behind (h : Path next c l e) {i : Nat} (hi : i < l.length) :
    Path next (next l[i]) (l.drop (i + 1)) e := by
  induction l generalizing c i with
  | nil => simp at hi
  | cons a l ih =>
    obtain ⟨rfl, h⟩ := h
    cases i with
    | zero => exact h
    | succ i => exact ih h (by simpa using hi)

/-- A new successor for the last element leads the path elsewhere. -/
theorem Path.redirect {z b : α} (h : Path next c (l ++ [z]) e) (hz : z ∉ l)
    (hn : ∀ a ∈ l, a ≠ z → next' a = next a) (hb : next' z = b) : Path next' c (l ++ [z]) b := by
  rw [path_concat] at h ⊢
  refine ⟨h.1.congr fun a ha => hn a ha fun he => hz (he ▸ ha), hb⟩

end LinkedChain
