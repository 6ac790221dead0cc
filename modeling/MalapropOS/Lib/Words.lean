import Mathlib.Data.List.TakeWhile

/-! The words of a text: its maximal runs of letters that are no separators. A reader that takes
off a gap and a word at a time comes upon one after the other. -/
namespace Words
variable {α : Type*} (sep : α → Bool)

def words (s : List α) : List (List α) := (s.splitOnP sep).filter fun w => !w.isEmpty

/-- What a reader gets that skips separators and stops at the next one. -/
def firstWord (s : List α) : List α := (s.dropWhile sep).takeWhile fun a => !sep a

def afterWord (s : List α) : List α := (s.dropWhile sep).dropWhile fun a => !sep a

variable {sep}

theorem words_nil : words sep [] = [] := rfl

theorem words_cons_sep {a : α} (h : sep a) (s : List α) : words sep (a :: s) = words sep s := by
  simp [words, List.splitOnP_cons_eq_if_modifyHead, h]

theorem words_of_forall {w : List α} (hw : w ≠ []) (h : ∀ a ∈ w, sep a = false) :
    words sep w = [w] := by
  rw [words, List.splitOnP_eq_singleton h]
  simpa using hw

theorem words_append_sep {w : List α} (hw : w ≠ []) (h : ∀ a ∈ w, sep a = false) {a : α}
    (ha : sep a) (s : List α) : words sep (w ++ a :: s) = w :: words sep s := by
  rw [words, List.splitOnP_append_cons_of_forall_mem h a ha,
    List.filter_cons_of_pos (by simpa using hw)]
  rfl

theorem words_dropWhile (s : List α) : words sep (s.dropWhile sep) = words sep s := by
  induction s with
  | nil => rfl
  | cons a s ih =>
    by_cases ha : sep a
    · rw [List.dropWhile_cons_of_pos ha, ih, words_cons_sep ha]
    · rw [List.dropWhile_cons_of_neg ha]

theorem firstWord_append_afterWord (sep : α → Bool) (s : List α) :
    firstWord sep s ++ afterWord sep s = s.dropWhile sep :=
  List.takeWhile_append_dropWhile

theorem firstWord_letters (s : List α) : ∀ a ∈ firstWord sep s, sep a = false := by
  intro a ha
  simpa using List.mem_takeWhile_imp ha

theorem afterWord_cons {s t : List α} {a : α} (h : afterWord sep s = a :: t) : sep a := by
  have hne : afterWord sep s ≠ [] := by simp [h]
  have hhead := List.head_dropWhile_not (fun a => !sep a) hne
  simp only [afterWord] at h
  simpa [h] using hhead

theorem afterWord_of_firstWord_nil {s : List α} (h : firstWord sep s = []) :
    afterWord sep s = [] := by
  cases hs : s.dropWhile sep with
  | nil => simp [afterWord, hs]
  | cons a t =>
    have hne : s.dropWhile sep ≠ [] := by simp [hs]
    have hhead := List.head_dropWhile_not sep hne
    simp only [hs, List.head_cons] at hhead
    simp [firstWord, hs, hhead] at h

/-- The words are the first one and those behind it. -/
theorem words_eq (sep : α → Bool) (s : List α) : words sep s =
    if firstWord sep s = [] then [] else firstWord sep s :: words sep (afterWord sep s) := by
  rw [← words_dropWhile, ← firstWord_append_afterWord]
  by_cases hw : firstWord sep s = []
  · rw [if_pos hw, hw, afterWord_of_firstWord_nil hw]
    rfl
  · rw [if_neg hw]
    cases hafter : afterWord sep s with
    | nil => rw [List.append_nil, words_of_forall hw (firstWord_letters s), words_nil]
    | cons a t =>
      have ha := afterWord_cons hafter
      rw [words_append_sep hw (firstWord_letters s) ha, words_cons_sep ha]

theorem headD_words (sep : α → Bool) (s : List α) : (words sep s).headD [] = firstWord sep s := by
  rw [words_eq]
  split
  · next hw => rw [hw, List.headD_nil]
  · rfl

theorem firstWord_subset (sep : α → Bool) (s : List α) : firstWord sep s ⊆ s := fun _ ha =>
  (List.dropWhile_sublist sep).subset ((List.takeWhile_sublist _).subset ha)

theorem nil_notMem_words (s : List α) : [] ∉ words sep s := by
  simp [words]

end Words
