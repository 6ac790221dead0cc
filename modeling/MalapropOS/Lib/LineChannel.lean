import Mathlib.Data.List.Basic

/-! A client that writes and reads single symbols, and a server that answers whole lines,
joined by two lossless in-order channels. The two run in any interleaving; the steps of
the client commute with those of the server, so one finished run decides all runs. -/
namespace LineChannel

inductive Prog (β α : Type) where
  | ret (a : α)
  | putc (x : β) (k : Prog β α)
  | getc (k : β → Prog β α)

variable {β α γ σ : Type}

def Prog.bind : Prog β α → (α → Prog β γ) → Prog β γ
  | .ret a, f => f a
  | .putc x k, f => .putc x (k.bind f)
  | .getc k, f => .getc (fun x => (k x).bind f)

instance : Monad (Prog β) where
  pure := .ret
  bind := .bind

structure Config (β α σ : Type) where
  prog : Prog β α
  toServer : List β
  toClient : List β
  server : σ

/-- The server reads a line up to `eol` and answers with a line; `none` is a crash. -/
inductive Step (eol : β) (serve : σ → List β → Option (σ × List β)) :
    Config β α σ → Config β α σ → Prop
  | put (x : β) (k : Prog β α) (i o : List β) (s : σ) :
      Step eol serve ⟨.putc x k, i, o, s⟩ ⟨k, i ++ [x], o, s⟩
  | get (x : β) (k : β → Prog β α) (i o : List β) (s : σ) :
      Step eol serve ⟨.getc k, i, x :: o, s⟩ ⟨k x, i, o, s⟩
  | answer (p : Prog β α) {line i o reply : List β} {s t : σ}
      (hl : eol ∉ line) (hs : serve s line = some (t, reply)) :
      Step eol serve ⟨p, line ++ eol :: i, o, s⟩ ⟨p, i, o ++ (reply ++ [eol]), t⟩

/-- `n` steps of a relation. -/
inductive Steps {X : Type} (r : X → X → Prop) : Nat → X → X → Prop
  | refl (c : X) : Steps r 0 c c
  | head {n : Nat} {c d e : X} (h : r c d) (hs : Steps r n d e) : Steps r (n + 1) c e

theorem Steps.trans {X : Type} {r : X → X → Prop} {m n : Nat} {c d e : X}
    (h : Steps r m c d) (h' : Steps r n d e) : Steps r (m + n) c e := by
  induction h with
  | refl c => simpa using h'
  | @head m c f d hc _ ih =>
    have hs : Steps r (m + n + 1) c e := .head hc (ih h')
    rwa [Nat.add_right_comm] at hs

/-- The client is through and nothing is under way in either direction. -/
def Finished (c : Config β α σ) : Prop :=
  (∃ a, c.prog = .ret a) ∧ c.toServer = [] ∧ c.toClient = []

section Commute
variable {eol : β} {serve : σ → List β → Option (σ × List β)} {c d e : Config β α σ}

/-- The first line of a channel is determined. -/
theorem line_unique {line line' i i' : List β} (hl : eol ∉ line) (hl' : eol ∉ line')
    (h : line ++ eol :: i = line' ++ eol :: i') : line = line' ∧ i = i' := by
  induction line generalizing line' with
  | nil =>
    cases line' with
    | nil => exact ⟨rfl, (List.cons.inj h).2⟩
    | cons y ys => exact absurd (List.cons.inj h).1 (fun he => hl' (he ▸ List.mem_cons_self))
  | cons x xs ih =>
    cases line' with
    | nil => exact absurd (List.cons.inj h).1.symm (fun he => hl (he ▸ List.mem_cons_self))
    | cons y ys =>
      obtain ⟨he, ht⟩ := List.cons.inj h
      obtain ⟨hxs, hi⟩ := ih (fun hm => hl (List.mem_cons_of_mem _ hm))
        (fun hm => hl' (List.mem_cons_of_mem _ hm)) ht
      exact ⟨by rw [he, hxs], hi⟩

theorem Step.answer_of_eq {p : Prog β α} {line j i o reply : List β} {s t : σ}
    (hj : j = line ++ eol :: i) (hl : eol ∉ line) (hs : serve s line = some (t, reply)) :
    Step eol serve ⟨p, j, o, s⟩ ⟨p, i, o ++ (reply ++ [eol]), t⟩ :=
  hj ▸ .answer p hl hs

theorem Step.diamond (h : Step eol serve c d) (h' : Step eol serve c e) :
    d = e ∨ ∃ f, Step eol serve d f ∧ Step eol serve e f := by
  cases h with
  | put x k i o s =>
    generalize hc : (⟨.putc x k, i, o, s⟩ : Config β α σ) = c at h'
    cases h' with
    | put x' k' i' o' s' =>
      cases hc
      exact Or.inl rfl
    | get x' k' i' o' s' => cases hc
    | answer p hl hs =>
      cases hc
      exact Or.inr ⟨_, .answer_of_eq (by simp) hl hs, .put x k _ _ _⟩
  | get x k i o s =>
    generalize hc : (⟨.getc k, i, x :: o, s⟩ : Config β α σ) = c at h'
    cases h' with
    | put x' k' i' o' s' => cases hc
    | get x' k' i' o' s' =>
      cases hc
      exact Or.inl rfl
    | answer p hl hs =>
      cases hc
      exact Or.inr ⟨_, .answer _ hl hs, .get x k _ _ _⟩
  | @answer p line i o reply s t hl hs =>
    generalize hc : (⟨p, line ++ eol :: i, o, s⟩ : Config β α σ) = c at h'
    cases h' with
    | put x' k' i' o' s' =>
      cases hc
      exact Or.inr ⟨_, .put x' k' _ _ _, .answer_of_eq (by simp) hl hs⟩
    | get x' k' i' o' s' =>
      cases hc
      exact Or.inr ⟨_, .get x' k' _ _ _, .answer _ hl hs⟩
    | @answer p' line' i' o' reply' s' t' hl' hs' =>
      injection hc with hp hi ho hss
      subst hp ho hss
      obtain ⟨rfl, rfl⟩ := line_unique hl hl' hi
      obtain ⟨rfl, rfl⟩ := Prod.mk.inj (Option.some.inj (hs.symm.trans hs'))
      exact Or.inl rfl

theorem Finished.no_step (hf : Finished c) (h : Step eol serve c d) : False := by
  obtain ⟨⟨a, hp⟩, hi, ho⟩ := hf
  cases h with
  | put => cases hp
  | get => cases hp
  | answer => simp at hi

/-- Each step out of a configuration that can finish is a step towards that end. -/
theorem Steps.after_step {n : Nat} {f : Config β α σ} (h : Steps (Step eol serve) n c f)
    (hf : Finished f) (hs : Step eol serve c d) : ∃ m, n = m + 1 ∧ Steps (Step eol serve) m d f := by
  induction h generalizing d with
  | refl c => exact (hf.no_step hs).elim
  | @head n c e f he ht ih =>
    refine ⟨n, rfl, ?_⟩
    obtain rfl | ⟨g, heg, hdg⟩ := Step.diamond he hs
    · exact ht
    · obtain ⟨m, rfl, hg⟩ := ih hf heg
      exact .head hdg hg

/-- An answer that reaches a client which has returned is never read. -/
theorem Steps.nothing_unread {n : Nat} {f : Config β α σ} (h : Steps (Step eol serve) n c f)
    (hf : Finished f) {a : α} (hc : c.prog = .ret a) : c.toClient = [] := by
  induction h with
  | refl c => exact hf.2.2
  | head hs _ ih =>
    cases hs with
    | put => cases hc
    | get => cases hc
    | answer => simpa using ih hf hc

theorem Steps.returned {n : Nat} {f : Config β α σ} (h : Steps (Step eol serve) n c f)
    (hf : Finished f) {a : α} (hc : c.prog = .ret a) : c = f := by
  cases h with
  | refl => rfl
  | head hs ht =>
    cases hs with
    | put => cases hc
    | get => cases hc
    | answer => simpa using ht.nothing_unread hf hc

/-- Each run is the beginning of one that finishes. -/
theorem Steps.completes {m n : Nat} {f : Config β α σ} (hm : Steps (Step eol serve) m c d)
    (hn : Steps (Step eol serve) n c f) (hf : Finished f) :
    ∃ j, n = m + j ∧ Steps (Step eol serve) j d f := by
  induction hm generalizing n with
  | refl c => exact ⟨n, (Nat.zero_add n).symm, hn⟩
  | head hs _ ih =>
    obtain ⟨k, rfl, hk⟩ := hn.after_step hf hs
    obtain ⟨j, rfl, hj⟩ := ih hk
    exact ⟨j, by omega, hj⟩

end Commute

section Clients
variable {eol : β} {serve : σ → List β → Option (σ × List β)}

theorem Prog.bind_assoc {δ : Type} (p : Prog β α) (f : α → Prog β γ) (g : γ → Prog β δ) :
    (p.bind f).bind g = p.bind (fun a => (f a).bind g) := by
  induction p with
  | ret a => rfl
  | putc x k ih => simp [Prog.bind, ih]
  | getc k ih => simp [Prog.bind, ih]

/-- Whatever follows it, the program gets to its end with the result `a`, the channels and
the server going from the first triple to the second. -/
def Evals (eol : β) (serve : σ → List β → Option (σ × List β)) (p : Prog β α)
    (st : List β × List β × σ) (a : α) (st' : List β × List β × σ) : Prop :=
  ∀ (γ : Type) (k : α → Prog β γ), ∃ n, Steps (Step eol serve) n
    ⟨p.bind k, st.1, st.2.1, st.2.2⟩ ⟨k a, st'.1, st'.2.1, st'.2.2⟩

theorem Evals.ret (a : α) (st : List β × List β × σ) : Evals eol serve (.ret a) st a st :=
  fun _ _ => ⟨0, .refl _⟩

theorem Evals.bind {p : Prog β α} {f : α → Prog β γ} {st st' st'' : List β × List β × σ}
    {a : α} {b : γ} (h : Evals eol serve p st a st') (h' : Evals eol serve (f a) st' b st'') :
    Evals eol serve (p.bind f) st b st'' := by
  intro δ k
  obtain ⟨m, hm⟩ := h δ (fun a => (f a).bind k)
  obtain ⟨n, hn⟩ := h' δ k
  rw [Prog.bind_assoc]
  exact ⟨m + n, hm.trans hn⟩

theorem Prog.bind_ret (p : Prog β α) : p.bind .ret = p := by
  induction p with
  | ret a => rfl
  | putc x k ih => rw [Prog.bind, ih]
  | getc k ih => simp [Prog.bind, ih]

/-- Between clear channels the interleaving does not matter: no run is longer than the bound, a run
that is not at the end can go on, and when the program has returned that is the end. -/
theorem Evals.all_runs {p : Prog β α} {s t : σ} {a : α}
    (h : Evals eol serve p ([], [], s) a ([], [], t)) :
    ∃ N, ∀ m c, Steps (Step eol serve) m ⟨p, [], [], s⟩ c → m ≤ N ∧
      (c = ⟨.ret a, [], [], t⟩ ∨ ∃ d, Step eol serve c d) ∧
      ((∃ b, c.prog = .ret b) → c = ⟨.ret a, [], [], t⟩) := by
  obtain ⟨N, hN⟩ := h α .ret
  rw [Prog.bind_ret] at hN
  have hf : Finished (⟨.ret a, [], [], t⟩ : Config β α σ) := ⟨⟨a, rfl⟩, rfl, rfl⟩
  refine ⟨N, fun m c hm => ?_⟩
  obtain ⟨j, rfl, hj⟩ := hm.completes hN hf
  refine ⟨Nat.le_add_right m j, ?_, fun hret => ?_⟩
  · cases hj with
    | refl => exact Or.inl rfl
    | head hs _ => exact Or.inr ⟨_, hs⟩
  · obtain ⟨b, hb⟩ := hret
    exact hj.returned hf hb

/-- The server answers a line that is all there. -/
theorem Evals.answered {p : Prog β α} {line o reply : List β} {s t : σ} {a : α}
    {st : List β × List β × σ} (hl : eol ∉ line) (hs : serve s line = some (t, reply))
    (h : Evals eol serve p ([], o ++ (reply ++ [eol]), t) a st) :
    Evals eol serve p (line ++ [eol], o, s) a st := by
  intro γ k
  obtain ⟨n, hn⟩ := h γ k
  exact ⟨n + 1, .head (.answer _ hl hs) hn⟩

/-- The program writes `xs` and reads nothing. -/
def Writes (p : Prog β Unit) (xs : List β) : Prop :=
  ∀ (σ : Type) (eol : β) (serve : σ → List β → Option (σ × List β)) (i o : List β) (s : σ),
    Evals eol serve p (i, o, s) () (i ++ xs, o, s)

theorem Writes.putc (x : β) : Writes (.putc x (.ret ())) [x] :=
  fun _ _ _ _ _ _ _ _ => ⟨1, .head (.put _ _ _ _ _) (.refl _)⟩

theorem Writes.ret : Writes (.ret () : Prog β Unit) [] :=
  fun _ _ _ i o s => by simpa using Evals.ret () (i, o, s)

theorem Writes.bind {p : Prog β Unit} {f : Unit → Prog β Unit} {xs ys : List β}
    (h : Writes p xs) (h' : Writes (f ()) ys) : Writes (p.bind f) (xs ++ ys) := by
  intro σ eol serve i o s
  rw [← List.append_assoc]
  exact (h σ eol serve i o s).bind (h' σ eol serve (i ++ xs) o s)

/-- The program reads `xs` with the result `a` and writes nothing. -/
def Reads (p : Prog β α) (xs : List β) (a : α) : Prop :=
  ∀ (σ : Type) (eol : β) (serve : σ → List β → Option (σ × List β)) (i o : List β) (s : σ),
    Evals eol serve p (i, xs ++ o, s) a (i, o, s)

theorem Reads.getc (x : β) : Reads (.getc .ret) [x] x :=
  fun _ _ _ _ _ _ _ _ => ⟨1, .head (.get _ _ _ _ _) (.refl _)⟩

theorem Reads.ret (a : α) : Reads (.ret a : Prog β α) [] a :=
  fun _ _ _ i o s => Evals.ret a (i, o, s)

theorem Reads.bind {p : Prog β α} {f : α → Prog β γ} {xs ys : List β} {a : α} {b : γ}
    (h : Reads p xs a) (h' : Reads (f a) ys b) : Reads (p.bind f) (xs ++ ys) b := by
  intro σ eol serve i o s
  have hx := h σ eol serve i (ys ++ o) s
  rw [← List.append_assoc] at hx
  exact hx.bind (h' σ eol serve i o s)

end Clients
end LineChannel
