import Mathlib.Data.List.GetD

/-! A line of text with a cursor, as the list before the cursor and the list after it. The text
never gets longer than a capacity: what an insertion pushes over the end is cut off. -/
namespace TwoList
variable {α : Type*}

structure Line (α : Type*) where
  before : List α
  after : List α

def empty : Line α := ⟨[], []⟩

def Line.text (e : Line α) : List α := e.before ++ e.after

def Line.insert (capacity : Nat) (c : α) (e : Line α) : Line α :=
  if e.before.length < capacity then
    ⟨e.before ++ [c], e.after.take (capacity - (e.before.length + 1))⟩
  else e

def Line.backspace (e : Line α) : Line α := ⟨e.before.dropLast, e.after⟩

def Line.left (e : Line α) : Line α :=
  match e.before.getLast? with
  | some c => ⟨e.before.dropLast, c :: e.after⟩
  | none => e

def Line.right (e : Line α) : Line α :=
  match e.after with
  | c :: after => ⟨e.before ++ [c], after⟩
  | [] => e

theorem left_concat (before after : List α) (c : α) :
    Line.left ⟨before ++ [c], after⟩ = ⟨before, c :: after⟩ := by
  simp [Line.left]

theorem left_nil (after : List α) : Line.left ⟨[], after⟩ = ⟨[], after⟩ := rfl

theorem backspace_concat (before after : List α) (c : α) :
    Line.backspace ⟨before ++ [c], after⟩ = ⟨before, after⟩ := by
  simp [Line.backspace]

theorem text_left (e : Line α) : e.left.text = e.text := by
  obtain ⟨before, after⟩ := e
  rcases List.eq_nil_or_concat before with rfl | ⟨b, c, rfl⟩
  · rfl
  · rw [List.concat_eq_append, left_concat]
    simp [Line.text]

theorem text_right (e : Line α) : e.right.text = e.text := by
  obtain ⟨before, after⟩ := e
  cases after <;> simp [Line.right, Line.text]

theorem mem_text_insert {capacity : Nat} {c x : α} {e : Line α}
    (h : x ∈ (e.insert capacity c).text) : x = c ∨ x ∈ e.text := by
  unfold Line.insert at h
  split at h
  · simp only [Line.text, List.mem_append, List.mem_singleton] at h ⊢
    rcases h with (h | h) | h
    · exact Or.inr (Or.inl h)
    · exact Or.inl h
    · exact Or.inr (Or.inr (List.mem_of_mem_take h))
  · exact Or.inr h

theorem mem_text_backspace {x : α} {e : Line α} (h : x ∈ e.backspace.text) : x ∈ e.text := by
  simp only [Line.text, Line.backspace, List.mem_append] at h ⊢
  exact h.imp_left fun h => List.dropLast_subset _ h

theorem length_insert_le {capacity : Nat} {c : α} {e : Line α} (h : e.text.length ≤ capacity) :
    (e.insert capacity c).text.length ≤ capacity := by
  unfold Line.insert
  split
  · simp only [Line.text, List.length_append, List.length_take, List.length_singleton]
    omega
  · exact h

/-- The text from the cursor on moves right by one place, and its last item is cut off. -/
theorem getD_insert {capacity : Nat} {e : Line α} (h : e.before.length < capacity) (c d : α)
    (i : Nat) : (e.insert capacity c).text.getD i d =
      if i < e.before.length then e.text.getD i d
      else if i = e.before.length then c
      else if i < capacity then e.text.getD (i - 1) d else d := by
  rw [Line.insert, if_pos h, Line.text, Line.text, List.append_assoc]
  by_cases hlt : i < e.before.length
  · rw [if_pos hlt, List.getD_append _ _ _ _ hlt, List.getD_append _ _ _ _ hlt]
  · rw [if_neg hlt, List.getD_append_right _ _ _ _ (Nat.le_of_not_lt hlt)]
    by_cases hi : i = e.before.length
    · rw [if_pos hi, hi, Nat.sub_self]
      rfl
    · obtain ⟨k, rfl⟩ : ∃ k, i = e.before.length + k + 1 := ⟨i - e.before.length - 1, by omega⟩
      have hk : e.before.length + k + 1 - e.before.length = k + 1 := by omega
      have hk' : e.before.length + k + 1 - 1 - e.before.length = k := by omega
      rw [if_neg hi, List.getD_append_right e.before _ _ _ (by omega), hk, hk', List.cons_append,
        List.getD_cons_succ, List.nil_append, List.getD_eq_getElem?_getD, List.getElem?_take,
        List.getD_eq_getElem?_getD]
      by_cases hc : e.before.length + k + 1 < capacity
      · rw [if_pos hc, if_pos (by omega)]
      · rw [if_neg hc, if_neg (by omega)]
        rfl

/-- The text from the cursor on moves left by one place. -/
theorem getD_backspace {e : Line α} (h : 0 < e.before.length) (d : α) (i : Nat) :
    e.backspace.text.getD i d =
      if i < e.before.length - 1 then e.text.getD i d else e.text.getD (i + 1) d := by
  have hlen : e.before.dropLast.length = e.before.length - 1 := List.length_dropLast
  show (e.before.dropLast ++ e.after).getD i d = if i < e.before.length - 1 then
    (e.before ++ e.after).getD i d else (e.before ++ e.after).getD (i + 1) d
  by_cases hlt : i < e.before.length - 1
  · rw [if_pos hlt, List.getD_append _ _ _ _ (by omega), List.getD_append _ _ _ _ (by omega),
      List.getD_eq_getElem _ _ (by omega), List.getD_eq_getElem _ _ (by omega),
      List.getElem_dropLast]
  · rw [if_neg hlt, List.getD_append_right _ _ _ _ (by omega),
      List.getD_append_right _ _ _ _ (by omega)]
    congr 1
    omega

theorem length_backspace_le (e : Line α) : e.backspace.text.length ≤ e.text.length := by
  simp only [Line.text, Line.backspace, List.length_append, List.length_dropLast]
  omega

end TwoList
