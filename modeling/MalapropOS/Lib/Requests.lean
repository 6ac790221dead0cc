import MalapropOS.Lib.LineChannel

/-! A program that makes requests of a component and goes on with each response; it may also give
up. Where the component is itself a program over a line channel, the whole program becomes one,
and it does what it does over the component that it was written for. -/
namespace Requests

inductive Prog (Q : Type) (R : Q → Type) (α : Type) where
  | ret (a : α)
  | call (q : Q) (k : R q → Prog Q R α)

variable {Q : Type} {R : Q → Type} {S σ β α γ : Type}

def Prog.bind : Prog Q R α → (α → Prog Q R γ) → Prog Q R γ
  | .ret a, f => f a
  | .call q k, f => .call q (fun x => (k x).bind f)

instance : Monad (Prog Q R) where
  pure := .ret
  bind := .bind

def request (q : Q) : OptionT (Prog Q R) (R q) := OptionT.lift (.call q .ret)

/-- The result, and the component's state behind it. -/
def exec (answer : (q : Q) → S → R q × S) : Prog Q R α → S → α × S
  | .ret a, s => (a, s)
  | .call q k, s => exec answer (k (answer q s).1) (answer q s).2

/-- All the requests are admitted. -/
def Admitted (ok : Q → Prop) (answer : (q : Q) → S → R q × S) : Prog Q R α → S → Prop
  | .ret _, _ => True
  | .call q k, s => ok q ∧ Admitted ok answer (k (answer q s).1) (answer q s).2

/-- A program that may give up, as a function of the component's state. -/
def run (answer : (q : Q) → S → R q × S) (p : OptionT (Prog Q R) α) (s : S) : Option (α × S) :=
  (exec answer p.run s).1.map (·, (exec answer p.run s).2)

section Execution
variable (answer : (q : Q) → S → R q × S) (ok : Q → Prop)

theorem exec_bind (p : Prog Q R α) (f : α → Prog Q R γ) (s : S) :
    exec answer (p.bind f) s = exec answer (f (exec answer p s).1) (exec answer p s).2 := by
  induction p generalizing s with
  | ret a => rfl
  | call q k ih => exact ih _ _

theorem admitted_bind {p : Prog Q R α} {f : α → Prog Q R γ} {s : S} :
    Admitted ok answer (p.bind f) s ↔ Admitted ok answer p s ∧
      Admitted ok answer (f (exec answer p s).1) (exec answer p s).2 := by
  induction p generalizing s with
  | ret a => simp [Prog.bind, Admitted, exec]
  | call q k ih => simp [Prog.bind, Admitted, exec, ih, and_assoc]

variable {answer} in
theorem exec_of_run {p : OptionT (Prog Q R) α} {s t : S} {a : α}
    (h : run answer p s = some (a, t)) : exec answer p.run s = (some a, t) := by
  rw [run, Option.map_eq_some_iff] at h
  obtain ⟨b, hb, heq⟩ := h
  obtain ⟨rfl, ht⟩ := Prod.mk.inj heq
  exact Prod.ext hb ht

theorem run_bind (p : OptionT (Prog Q R) α) (f : α → OptionT (Prog Q R) γ) (s : S) :
    run answer (p >>= f) s = (run answer p s).bind fun r => run answer (f r.1) r.2 := by
  have hrun : (p >>= f).run = p.run.bind fun o =>
      (match o with | some a => (f a).run | none => .ret none : Prog Q R (Option γ)) := rfl
  simp only [run, hrun, exec_bind]
  cases (exec answer p.run s).1 with
  | none => rfl
  | some a => rfl

variable {answer} in
/-- A step that returns, and what follows it. -/
theorem run_seq {p : OptionT (Prog Q R) α} {f : α → OptionT (Prog Q R) γ} {s t : S} {a : α}
    {r : Option (γ × S)} (hp : run answer p s = some (a, t)) (hf : run answer (f a) t = r) :
    run answer (p >>= f) s = r := by
  rw [run_bind, hp]
  exact hf

variable {answer} in
theorem read_result {p : OptionT (Prog Q R) α} {o : Option α} {s t : S} {a : α}
    (hp : run answer p s = o.map (·, s)) (ha : run answer p s = some (a, t)) :
    o = some a ∧ t = s := by
  rw [hp, Option.map_eq_some_iff] at ha
  obtain ⟨b, hb, heq⟩ := ha
  obtain ⟨rfl, rfl⟩ := Prod.mk.inj heq
  exact ⟨hb, rfl⟩

variable {answer} in
/-- A step that leaves the state or gives up. -/
theorem run_read {p : OptionT (Prog Q R) α} {o : Option α} {s : S}
    (hp : run answer p s = o.map (·, s)) (f : α → OptionT (Prog Q R) γ) :
    run answer (p >>= f) s = o.bind fun a => run answer (f a) s := by
  rw [run_bind, hp, Option.bind_map]
  rfl

variable {answer} in
/-- A loop whose rounds leave the state. -/
theorem run_foldlM {δ : Type} {f : α → δ → OptionT (Prog Q R) α} {g : α → δ → Option α} {s : S}
    (h : ∀ a x, run answer (f a x) s = (g a x).map (·, s)) (l : List δ) (a : α) :
    run answer (l.foldlM f a) s = (l.foldlM g a).map (·, s) := by
  induction l generalizing a with
  | nil => rfl
  | cons x l ih =>
    rw [List.foldlM_cons, run_read (h a x), List.foldlM_cons, Option.bind_eq_bind, Option.map_bind]
    exact Option.bind_congr fun b _ => ih b

variable {ok}

theorem admitted_seq {p : OptionT (Prog Q R) α} {f : α → OptionT (Prog Q R) γ} {s : S}
    (hp : Admitted ok answer p.run s)
    (hf : ∀ a t, run answer p s = some (a, t) → Admitted ok answer (f a).run t) :
    Admitted ok answer (p >>= f).run s := by
  have hrun : (p >>= f).run = p.run.bind fun o =>
      (match o with | some a => (f a).run | none => .ret none : Prog Q R (Option γ)) := rfl
  rw [hrun, admitted_bind]
  refine ⟨hp, ?_⟩
  cases ho : (exec answer p.run s).1 with
  | none => trivial
  | some a => exact hf a _ (by rw [run, ho]; rfl)

variable {answer} in
/-- The same where the result of the first part is known. -/
theorem admitted_known {p : OptionT (Prog Q R) α} {f : α → OptionT (Prog Q R) γ} {s t : S} {a : α}
    (hrun : run answer p s = some (a, t)) (hp : Admitted ok answer p.run s)
    (hf : Admitted ok answer (f a).run t) : Admitted ok answer (p >>= f).run s := by
  refine admitted_seq answer hp fun b u hb => ?_
  obtain ⟨rfl, rfl⟩ := Prod.mk.inj (Option.some.inj (hrun.symm.trans hb))
  exact hf

/-- A loop whose rounds are admitted wherever they start. -/
theorem admitted_foldlM {δ : Type} {f : α → δ → OptionT (Prog Q R) α} {l : List δ}
    (h : ∀ x ∈ l, ∀ a s, Admitted ok answer (f a x).run s) (a : α) (s : S) :
    Admitted ok answer (l.foldlM f a).run s := by
  induction l generalizing a s with
  | nil => trivial
  | cons x l ih =>
    obtain ⟨hx, hl⟩ := List.forall_mem_cons.mp h
    rw [List.foldlM_cons]
    exact admitted_seq answer (hx a s) fun b t _ => ih hl b t

/-- A loop whose rounds leave the state. -/
theorem admitted_foldlM_read {δ : Type} {f : α → δ → OptionT (Prog Q R) α} {l : List δ} {s : S}
    (h : ∀ x ∈ l, ∀ a, Admitted ok answer (f a x).run s ∧
      ∀ b t, run answer (f a x) s = some (b, t) → t = s) (a : α) :
    Admitted ok answer (l.foldlM f a).run s := by
  induction l generalizing a with
  | nil => trivial
  | cons x l ih =>
    obtain ⟨hx, hl⟩ := List.forall_mem_cons.mp h
    rw [List.foldlM_cons]
    refine admitted_seq answer (hx a).1 fun b t hb => ?_
    obtain rfl := (hx a).2 b t hb
    exact ih hl b

end Execution

section Channels
open LineChannel (Evals)
variable {answer : (q : Q) → S → R q × S} {ok : Q → Prop}

/-- The program with its requests made over the channel. -/
def Prog.onChannel (handler : (q : Q) → LineChannel.Prog β (R q)) :
    Prog Q R α → LineChannel.Prog β α
  | .ret a => .ret a
  | .call q k => (handler q).bind fun x => (k x).onChannel handler

variable {eol : β} {serve : σ → List β → Option (σ × List β)}
  {handler : (q : Q) → LineChannel.Prog β (R q)} {Rel : S → σ → Prop}

/-- If the server answers each request as the component does, the states going along in a relation,
so it does for the program. -/
theorem evals_onChannel (hcall : ∀ q s t, ok q → Rel s t → ∃ t', Rel (answer q s).2 t' ∧
      Evals eol serve (handler q) ([], [], t) (answer q s).1 ([], [], t'))
    {p : Prog Q R α} {s : S} {t : σ} (hp : Admitted ok answer p s) (ht : Rel s t) :
    ∃ t', Rel (exec answer p s).2 t' ∧
      Evals eol serve (p.onChannel handler) ([], [], t) (exec answer p s).1 ([], [], t') := by
  induction p generalizing s t with
  | ret a => exact ⟨t, ht, Evals.ret a _⟩
  | call q k ih =>
    obtain ⟨t', hrel, heval⟩ := hcall q s t hp.1 ht
    obtain ⟨t'', hrel', heval'⟩ := ih _ hp.2 hrel
    exact ⟨t'', hrel', heval.bind heval'⟩

end Channels
end Requests
