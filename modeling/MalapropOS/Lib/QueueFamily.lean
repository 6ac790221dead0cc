import Mathlib.Data.Set.Insert
import MalapropOS.Lib.TailQueue

/-! Tail queues that share one memory. Removal from the middle of a queue, and loops along a queue
whose body may change what it runs over. -/
namespace TailQueue

section Segments
variable {H A : Type*} {null : A} {m m' : Links H A} {p q : Place H A} {h h' : H} {a : A}
variable {xs ys zs : List A}

/-- The place behind the elements `xs`, from the place `p` on. -/
def placeBehind : Place H A → List A → Place H A
  | p, [] => p
  | _, a :: xs => placeBehind (.next a) xs

/-- The elements `xs`, linked both ways from the place `p` on. -/
def Segment (null : A) (m : Links H A) : Place H A → List A → Prop
  | _, [] => True
  | p, a :: xs => m.ref p = a ∧ a ≠ null ∧ m.prev a = p ∧ Segment null m (.next a) xs

theorem linked_append : Linked null m p (xs ++ ys) q ↔
    Segment null m p xs ∧ Linked null m (placeBehind p xs) ys q := by
  induction xs generalizing p with
  | nil => simp [Segment, placeBehind]
  | cons a xs ih => simp only [List.cons_append, Linked, Segment, placeBehind, ih, and_assoc]

theorem placeBehind_eq (p : Place H A) (xs : List A) :
    placeBehind p xs = p ∨ ∃ x ∈ xs, placeBehind p xs = .next x := by
  induction xs generalizing p with
  | nil => exact Or.inl rfl
  | cons a xs ih =>
    cases ih (.next a) with
    | inl h => exact Or.inr ⟨a, List.mem_cons_self, h⟩
    | inr h =>
      obtain ⟨x, hx, he⟩ := h
      exact Or.inr ⟨x, List.mem_cons_of_mem a hx, he⟩

theorem placeBehind_ne (hp : p ≠ .next a) (ha : a ∉ xs) : placeBehind p xs ≠ .next a := by
  obtain he | ⟨x, hx, he⟩ := placeBehind_eq p xs
  · rwa [he]
  · rw [he]
    exact fun h => ha (Place.next.inj h ▸ hx)

/-- The pointer at the end of a segment is not part of it. -/
theorem Segment.congr (hs : Segment null m p xs) (hn : xs.Nodup) (hp : ∀ x ∈ xs, p ≠ .next x)
    (href : ∀ r, r ≠ placeBehind p xs → m'.ref r = m.ref r)
    (hprev : ∀ x ∈ xs, m'.prev x = m.prev x) : Segment null m' p xs := by
  induction xs generalizing p with
  | nil => trivial
  | cons a xs ih =>
    obtain ⟨ha, hn⟩ := List.nodup_cons.mp hn
    obtain ⟨hpa, hpx⟩ := List.forall_mem_cons.mp hp
    obtain ⟨hva, hvx⟩ := List.forall_mem_cons.mp hprev
    have hend : p ≠ placeBehind (.next a) xs := by
      obtain he | ⟨x, hx, he⟩ := placeBehind_eq (.next a) xs
      · rw [he]
        exact hpa
      · rw [he]
        exact hpx x hx
    refine ⟨(href p hend).trans hs.1, hs.2.1, hva.trans hs.2.2.1, ?_⟩
    exact ih hs.2.2.2 hn (fun x hx he => ha (Place.next.inj he ▸ hx)) href hvx

/-- What is behind an element of a queue. -/
theorem IsQueue.ref_next (hq : IsQueue null m h (xs ++ a :: ys)) :
    m.ref (.next a) = ys.head?.getD null := by
  obtain ⟨-, -, -, -, hl⟩ := linked_append.mp hq.linked
  cases ys with
  | nil => exact hl.1
  | cons y ys => exact hl.1

variable [DecidableEq H] [DecidableEq A]

theorem IsQueue.remove_last (hq : IsQueue null m h (xs ++ [a])) :
    TailQueue.remove null m h a = { m with
      last := Function.update m.last h (placeBehind (.first h) xs)
      ref := Function.update m.ref (placeBehind (.first h) xs) null } := by
  obtain ⟨-, -, -, hprev, hnext, -⟩ := linked_append.mp hq.linked
  simp [TailQueue.remove, hnext, hprev]

theorem IsQueue.remove_inner {y : A} (hq : IsQueue null m h (xs ++ a :: y :: ys)) :
    TailQueue.remove null m h a = { m with
      prev := Function.update m.prev y (placeBehind (.first h) xs)
      ref := Function.update m.ref (placeBehind (.first h) xs) y } := by
  obtain ⟨-, -, -, hprev, hnext, hnull, -, -⟩ := linked_append.mp hq.linked
  have hya : a ≠ y := by
    rintro rfl
    exact (List.nodup_cons.mp (List.nodup_append'.mp hq.nodup).2.1).1 List.mem_cons_self
  simp [TailQueue.remove, hnext, hnull, hprev, Function.update_of_ne hya]

/-- An element is taken out of the queue, wherever it is. -/
theorem IsQueue.unlink (hq : IsQueue null m h (xs ++ a :: ys)) :
    IsQueue null (TailQueue.remove null m h a) h (xs ++ ys) := by
  obtain ⟨hseg, -, -, hprev, hrest⟩ := linked_append.mp hq.linked
  obtain ⟨hxs, ⟨hay, hys⟩, hxy⟩ : xs.Nodup ∧ (a ∉ ys ∧ ys.Nodup) ∧ xs.Disjoint (a :: ys) := by
    rw [← List.nodup_cons, ← List.nodup_append']
    exact hq.nodup
  refine ⟨linked_append.mpr ?_, ?_⟩
  · cases ys with
    | nil =>
      rw [hq.remove_last]
      refine ⟨hseg.congr hxs (by simp) (fun r hr => ?_) fun _ _ => rfl, by simp, by simp⟩
      exact Function.update_of_ne hr _ _
    | cons y ys =>
      obtain ⟨-, hnull, -, hl⟩ := hrest
      have hyx : y ∉ xs := fun hx => hxy hx (by simp)
      obtain ⟨hyy, -⟩ := List.nodup_cons.mp hys
      have hbehind (x : A) (hx : x ∈ y :: ys) : placeBehind (.first h) xs ≠ .next x :=
        placeBehind_ne (by simp) fun hxx => hxy hxx (List.mem_cons_of_mem a hx)
      rw [hq.remove_inner]
      refine ⟨hseg.congr hxs (by simp) (fun r hr => Function.update_of_ne hr _ _) fun x hx => ?_, ?_⟩
      · exact Function.update_of_ne (ne_of_mem_of_not_mem hx hyx) _ _
      refine ⟨by simp, hnull, by simp, hl.congr ?_ fun x hx => ⟨?_, ?_⟩⟩
      · exact Function.update_of_ne (hbehind y List.mem_cons_self).symm _ _
      · exact Function.update_of_ne (hbehind x (List.mem_cons_of_mem y hx)).symm _ _
      · exact Function.update_of_ne (ne_of_mem_of_not_mem hx hyy) _ _
  · exact List.nodup_append'.mpr ⟨hxs, hys, fun x hx hy => hxy hx (List.mem_cons_of_mem a hy)⟩

theorem IsQueue.unlink_other (hq : IsQueue null m h (xs ++ a :: ys)) (hq' : IsQueue null m h' zs)
    (hh : h ≠ h') (hz : (xs ++ a :: ys).Disjoint zs) :
    IsQueue null (TailQueue.remove null m h a) h' zs := by
  have hplace (x : A) (hx : x ∈ zs) : placeBehind (.first h) xs ≠ .next x :=
    placeBehind_ne (by simp) fun hxs => hz (List.mem_append_left _ hxs) hx
  have hfirst : placeBehind (.first h) xs ≠ .first h' := by
    obtain he | ⟨x, -, he⟩ := placeBehind_eq (.first h) xs <;> simp [he, hh]
  refine ⟨?_, hq'.nodup⟩
  cases ys with
  | nil =>
    rw [hq.remove_last]
    simp only [Function.update_of_ne hh.symm]
    refine hq'.linked.congr ?_ fun x hx => ⟨?_, rfl⟩
    · exact Function.update_of_ne hfirst.symm _ _
    · exact Function.update_of_ne (hplace x hx).symm _ _
  | cons y ys =>
    have hyz : y ∉ zs := fun hx => hz (by simp) hx
    rw [hq.remove_inner]
    refine hq'.linked.congr ?_ fun x hx => ⟨?_, ?_⟩
    · exact Function.update_of_ne hfirst.symm _ _
    · exact Function.update_of_ne (hplace x hx).symm _ _
    · exact Function.update_of_ne (ne_of_mem_of_not_mem hx hyz) _ _

/-- The pointer out of the removed element is as it was. -/
theorem IsQueue.unlink_next (hq : IsQueue null m h (xs ++ a :: ys)) :
    (TailQueue.remove null m h a).ref (.next a) = ys.head?.getD null := by
  have hax : a ∉ xs := fun hx => (List.nodup_append'.mp hq.nodup).2.2 hx List.mem_cons_self
  have hend : .next a ≠ placeBehind (.first h) xs := (placeBehind_ne (by simp) hax).symm
  rw [← hq.ref_next]
  cases ys with
  | nil =>
    rw [hq.remove_last]
    exact Function.update_of_ne hend _ _
  | cons y ys =>
    rw [hq.remove_inner]
    exact Function.update_of_ne hend _ _

end Segments

section Families
variable {H A : Type*} {null : A} {m : Links H A} {hs : Set H} {elems : H → List A} {h : H} {a : A}
variable {xs ys : List A}

/-- The queues of the heads `hs`, with no element in two of them. -/
structure Family (null : A) (m : Links H A) (hs : Set H) (elems : H → List A) : Prop where
  queue : ∀ h ∈ hs, IsQueue null m h (elems h)
  apart : ∀ h ∈ hs, ∀ h' ∈ hs, h ≠ h' → (elems h).Disjoint (elems h')

theorem Family.ne_null (hf : Family null m hs elems) (hh : h ∈ hs) : ∀ a ∈ elems h, a ≠ null :=
  (hf.queue h hh).linked.ne_null

theorem family_empty : Family null m ∅ elems := ⟨by simp, by simp⟩

variable [DecidableEq H] [DecidableEq A]

theorem IsQueue.init_other {h' : H} (hq : IsQueue null m h' xs) (hh : h ≠ h') :
    IsQueue null (TailQueue.init null m h) h' xs := by
  refine ⟨?_, hq.nodup⟩
  have hlast : (TailQueue.init null m h).last h' = m.last h' := Function.update_of_ne hh.symm _ _
  rw [hlast]
  exact hq.linked.congr (by simp [TailQueue.init, hh.symm]) fun x _ => ⟨by simp [TailQueue.init], rfl⟩

theorem Family.init (hf : Family null m hs elems) (hh : h ∉ hs) :
    Family null (TailQueue.init null m h) (insert h hs) (Function.update elems h []) := by
  have hne {k : H} (hk : k ∈ hs) : k ≠ h := ne_of_mem_of_not_mem hk hh
  refine ⟨fun k hk => ?_, fun k hk k' hk' hkk' => ?_⟩
  · obtain rfl | hk := hk
    · rw [Function.update_self]
      exact isQueue_init m k
    · rw [Function.update_of_ne (hne hk)]
      exact (hf.queue k hk).init_other (hne hk).symm
  · obtain rfl | hk := hk
    · simp
    obtain rfl | hk' := hk'
    · simp
    rw [Function.update_of_ne (hne hk), Function.update_of_ne (hne hk')]
    exact hf.apart k hk k' hk' hkk'

theorem Family.insertTail (hf : Family null m hs elems) (hh : h ∈ hs) (ha : a ≠ null)
    (hfresh : ∀ k ∈ hs, a ∉ elems k) :
    Family null (TailQueue.insertTail null m h a) hs (Function.update elems h (elems h ++ [a])) := by
  refine ⟨fun k hk => ?_, fun k hk k' hk' hkk' => ?_⟩
  · by_cases hkh : k = h
    · rw [hkh, Function.update_self]
      exact (hf.queue h hh).insertTail ha (hfresh h hh)
    · rw [Function.update_of_ne hkh]
      exact (hf.queue h hh).insertTail_other (hf.queue k hk) (Ne.symm hkh)
        (hf.apart h hh k hk (Ne.symm hkh)) (hfresh k hk)
  · rw [List.disjoint_left]
    intro x hx hx'
    have hmem {j : H} (hj : x ∈ Function.update elems h (elems h ++ [a]) j) :
        x ∈ elems j ∨ j = h ∧ x = a := by
      by_cases hjh : j = h
      · rw [hjh, Function.update_self] at hj
        rw [hjh]
        simpa using hj
      · rw [Function.update_of_ne hjh] at hj
        exact Or.inl hj
    obtain hx | ⟨hkh, rfl⟩ := hmem hx <;> obtain hx' | ⟨hkh', hxa⟩ := hmem hx'
    · exact hf.apart k hk k' hk' hkk' hx hx'
    · exact hfresh k hk (hxa ▸ hx)
    · exact hfresh k' hk' hx'
    · exact hkk' (hkh.trans hkh'.symm)

theorem Family.remove (hf : Family null m hs elems) (hh : h ∈ hs) (he : elems h = xs ++ a :: ys) :
    Family null (TailQueue.remove null m h a) hs (Function.update elems h (xs ++ ys)) := by
  have hq : IsQueue null m h (xs ++ a :: ys) := he ▸ hf.queue h hh
  refine ⟨fun k hk => ?_, fun k hk k' hk' hkk' => ?_⟩
  · by_cases hkh : k = h
    · rw [hkh, Function.update_self]
      exact hq.unlink
    · rw [Function.update_of_ne hkh]
      exact hq.unlink_other (hf.queue k hk) (Ne.symm hkh) (he ▸ hf.apart h hh k hk (Ne.symm hkh))
  · have hsub (j : H) : Function.update elems h (xs ++ ys) j ⊆ elems j := by
      by_cases hjh : j = h
      · rw [hjh, Function.update_self, he]
        exact List.append_subset.mpr ⟨List.subset_append_left _ _,
          fun x hx => List.mem_append_right _ (List.mem_cons_of_mem a hx)⟩
      · rw [Function.update_of_ne hjh]
        exact List.Subset.refl _
    exact fun x hx hx' => hf.apart k hk k' hk' hkk' (hsub k hx) (hsub k' hx')

end Families

section Loops
variable {H A σ : Type*} [DecidableEq A] (null : A)

/-- The loop along the elements from `a` on, in at most `n` rounds. The body may change the links;
the next element is looked up behind it. -/
def forEach (links : σ → Links H A) (body : A → σ → Option σ) : Nat → A → σ → Option σ
  | 0, a, s => if a = null then some s else none
  | n + 1, a, s =>
    if a = null then some s
    else (body a s).bind fun t => forEach links body n ((links t).ref (.next a)) t

/-- The loop that returns the first element with `p`; the null pointer if there is none. -/
def findFirst (p : A → Bool) (m : Links H A) : Nat → A → Option A
  | 0, a => if a = null then some null else none
  | n + 1, a =>
    if a = null then some null
    else if p a then some a else findFirst p m n (m.ref (.next a))

variable {null} {m : Links H A} {q : Place H A} {xs : List A}

/-- The rule for loops: an invariant on what is behind, what is ahead, and the state. -/
theorem forEach_rule {links : σ → Links H A} {body : A → σ → Option σ}
    (I : List A → List A → σ → Prop) {s : σ} {n : Nat} (hnull : ∀ a ∈ xs, a ≠ null)
    (hn : xs.length ≤ n) (hs : I [] xs s)
    (hstep : ∀ done a rest s, done ++ a :: rest = xs → I done (a :: rest) s → ∃ t, body a s = some t ∧
      (links t).ref (.next a) = rest.head?.getD null ∧ I (done ++ [a]) rest t) :
    ∃ t, forEach null links body n (xs.head?.getD null) s = some t ∧ I xs [] t := by
  have hloop (rest : List A) : ∀ done n s, done ++ rest = xs → rest.length ≤ n → I done rest s →
      ∃ t, forEach null links body n (rest.head?.getD null) s = some t ∧ I xs [] t := by
    induction rest with
    | nil =>
      intro done n s hd _ hi
      rw [List.append_nil] at hd
      refine ⟨s, ?_, hd ▸ hi⟩
      cases n <;> simp [forEach]
    | cons a rest ih =>
      intro done n s hd hlen hi
      have ha : a ≠ null := hnull a (hd ▸ by simp)
      cases n with
      | zero => exact absurd hlen (by simp)
      | succ n =>
        obtain ⟨t, ht, hnext, hi'⟩ := hstep done a rest s hd hi
        obtain ⟨t', ht', hend⟩ := ih (done ++ [a]) n t (by simpa using hd)
          (Nat.le_of_succ_le_succ hlen) hi'
        refine ⟨t', ?_, hend⟩
        rw [List.head?_cons, Option.getD_some, forEach, if_neg ha, ht, Option.bind_some, hnext]
        exact ht'
  exact hloop xs [] n s rfl hn hs

theorem findFirst_eq {p : A → Bool} (he : Elements null m q xs) {n : Nat} (hn : xs.length ≤ n) :
    findFirst null p m n (m.ref q) = some ((xs.find? p).getD null) := by
  induction xs generalizing q n with
  | nil =>
    rw [show m.ref q = null from he]
    cases n <;> simp [findFirst]
  | cons a xs ih =>
    obtain ⟨ha, hne, hrest⟩ := he
    cases n with
    | zero => exact absurd hn (by simp)
    | succ n =>
      rw [ha, findFirst, if_neg hne, List.find?_cons]
      cases hp : p a with
      | true => simp
      | false => simpa using ih hrest (Nat.le_of_succ_le_succ hn)

end Loops
end TailQueue
