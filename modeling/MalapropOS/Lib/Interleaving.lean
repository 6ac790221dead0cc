import MalapropOS.Lib.Requests

/-! Programs that share a component. Their requests are answered one after the other, in any
interleaving. What is seen of the component is described by an abstract machine, and a program is
verified over this machine alone. -/
namespace Requests
variable {Q : Type} {R : Q → Type} {S V α γ : Type}

/-- A request, of the program in view or of another one, and its answer. -/
structure Event (R : Q → Type) where
  mine : Bool
  request : Q
  reply : R request

def ask (q : Q) : Prog Q R (R q) := .call q .ret

/-- The component answers the requests, each of which meets the guard. -/
inductive Happens (answer : S → (q : Q) → Option (R q × S)) (guard : S → Q → Prop) :
    List (Event R) → S → S → Prop
  | nil {s : S} : Happens answer guard [] s s
  | cons {e : Event R} {es : List (Event R)} {s t u : S} (admitted : guard s e.request)
      (answered : answer s e.request = some (e.reply, t)) (rest : Happens answer guard es t u) :
      Happens answer guard (e :: es) s u

/-- The abstract machine takes a step for each request, and allows the answer. -/
inductive Steps (act : V → (q : Q) → R q → V → Prop) : List (Event R) → V → V → Prop
  | nil {v : V} : Steps act [] v v
  | cons {e : Event R} {es : List (Event R)} {v w x : V} (first : act v e.request e.reply w)
      (rest : Steps act es w x) : Steps act (e :: es) v x

/-- The requests of the program in view are those that it makes, and it returns `b`. -/
def Prog.Makes : Prog Q R α → List (Event R) → α → Prop
  | .ret a, es, b => (∀ e ∈ es, e.mine = false) ∧ a = b
  | .call q k, es, b => ∃ others r rest, es = others ++ ⟨true, q, r⟩ :: rest ∧
      (∀ e ∈ others, e.mine = false) ∧ (k r).Makes rest b

/-- Whatever the abstract machine answers, what the program returns meets the postcondition. -/
def Prog.Ensures (act : V → (q : Q) → R q → V → Prop) : Prog Q R α → (α → V → Prop) → V → Prop
  | .ret a, post, v => post a v
  | .call q k, post, v => ∀ r w, act v q r w → (k r).Ensures act post w

/-- The same where others may change what is seen, as far as `rely` goes. -/
def Prog.EnsuresUnder (act : V → (q : Q) → R q → V → Prop) (rely : V → V → Prop) :
    Prog Q R α → (α → V → Prop) → V → Prop
  | .ret a, post, v => ∀ w, rely v w → post a w
  | .call q k, post, v => ∀ x, rely v x → ∀ r w, act x q r w → (k r).EnsuresUnder act rely post w

variable {answer : S → (q : Q) → Option (R q × S)} {guard : S → Q → Prop}
  {act : V → (q : Q) → R q → V → Prop} {es : List (Event R)} {s t : S} {v w : V} {b : α}

/-- If each answer is a step of the abstract machine, a run of the component is one of the
machine. -/
theorem Happens.steps {sees : S → V → Prop} (hstep : ∀ s t v q r, guard s q → sees s v →
      answer s q = some (r, t) → ∃ w, act v q r w ∧ sees t w)
    (h : Happens answer guard es s t) (hv : sees s v) : ∃ w, Steps act es v w ∧ sees t w := by
  induction h generalizing v with
  | nil => exact ⟨v, .nil, hv⟩
  | cons admitted answered rest ih =>
    obtain ⟨w, hfirst, hw⟩ := hstep _ _ _ _ _ admitted hv answered
    obtain ⟨x, hrest, hx⟩ := ih hw
    exact ⟨x, .cons hfirst hrest, hx⟩

theorem Steps.append_inv {others : List (Event R)} (h : Steps act (others ++ es) v w) :
    ∃ x, Steps act others v x ∧ Steps act es x w := by
  induction others generalizing v with
  | nil => exact ⟨v, .nil, h⟩
  | cons e others ih =>
    cases h with
    | cons first rest =>
      obtain ⟨x, hothers, hes⟩ := ih rest
      exact ⟨x, .cons first hothers, hes⟩

theorem ensures_ask {q : Q} {f : R q → Prog Q R α} {post : α → V → Prop} :
    (ask q >>= f).Ensures act post v ↔ ∀ r w, act v q r w → (f r).Ensures act post w := Iff.rfl

section Rely
variable {rely : V → V → Prop} {p : Prog Q R α} {post : α → V → Prop}

/-- A machine seen through another one. -/
theorem Steps.simulated {act' : S → (q : Q) → R q → S → Prop} {sees : S → V → Prop}
    (hstep : ∀ s t v q r, act' s q r t → sees s v → ∃ w, act v q r w ∧ sees t w)
    (h : Steps act' es s t) (hv : sees s v) : ∃ w, Steps act es v w ∧ sees t w := by
  induction h generalizing v with
  | nil => exact ⟨v, .nil, hv⟩
  | cons first rest ih =>
    obtain ⟨w, hfirst, hw⟩ := hstep _ _ _ _ _ first hv
    obtain ⟨x, hrest, hx⟩ := ih hw
    exact ⟨x, .cons hfirst hrest, hx⟩

theorem ensuresUnder_ask {q : Q} {f : R q → Prog Q R α} :
    (ask q >>= f).EnsuresUnder act rely post v ↔
      ∀ x, rely v x → ∀ r w, act x q r w → (f r).EnsuresUnder act rely post w := Iff.rfl

theorem Prog.EnsuresUnder.mono {post' : α → V → Prop} (h : p.EnsuresUnder act rely post v)
    (hpost : ∀ a w, post a w → post' a w) : p.EnsuresUnder act rely post' v := by
  induction p generalizing v with
  | ret a => exact fun w hw => hpost a w (h w hw)
  | call q k ih => exact fun x hx r w hw => ih r (h x hx r w hw)

theorem Prog.EnsuresUnder.and {post' : α → V → Prop} (h : p.EnsuresUnder act rely post v)
    (h' : p.EnsuresUnder act rely post' v) :
    p.EnsuresUnder act rely (fun a w => post a w ∧ post' a w) v := by
  induction p generalizing v with
  | ret a => exact fun w hw => ⟨h w hw, h' w hw⟩
  | call q k ih => exact fun x hx r w hw => ih r (h x hx r w hw) (h' x hx r w hw)

theorem Prog.EnsuresUnder.of_forall (p : Prog Q R α) (v : V) (h : ∀ a w, post a w) :
    p.EnsuresUnder act rely post v := by
  induction p generalizing v with
  | ret a => exact fun w _ => h a w
  | call q k ih => exact fun x _ r w _ => ih r w

/-- What others may do to the state is all that the program does to it. -/
theorem Prog.EnsuresUnder.of_steps (htrans : ∀ u v w, rely u v → rely v w → rely u w)
    (hstep : ∀ v q r w, act v q r w → rely v w) (p : Prog Q R α) (v : V) :
    p.EnsuresUnder act rely (fun _ w => rely v w) v := by
  induction p generalizing v with
  | ret a => exact fun w hw => hw
  | call q k ih =>
    intro x hx r w hw
    have hvw := htrans v x w hx (hstep x q r w hw)
    exact (ih r w).mono fun _ u hu => htrans v w u hvw hu

variable (hrefl : ∀ v, rely v v)
include hrefl

/-- One program behind another one. -/
theorem Prog.EnsuresUnder.bind {f : α → Prog Q R γ} {post : γ → V → Prop}
    (h : p.EnsuresUnder act rely (fun a w => (f a).EnsuresUnder act rely post w) v) :
    (p >>= f).EnsuresUnder act rely post v := by
  induction p generalizing v with
  | ret a => exact h v (hrefl v)
  | call q k ih => exact fun x hx r w hw => ih r (h x hx r w hw)

variable (htrans : ∀ u v w, rely u v → rely v w → rely u w)
include htrans

theorem Steps.relied (h : Steps act es v w) (hes : ∀ e ∈ es, e.mine = false)
    (hothers : ∀ e ∈ es, e.mine = false → ∀ v w, act v e.request e.reply w → rely v w) :
    rely v w := by
  induction h with
  | nil => exact hrefl _
  | cons first rest ih =>
    have hfirst := hothers _ List.mem_cons_self (hes _ List.mem_cons_self) _ _ first
    have hrest := ih (fun e he => hes e (List.mem_cons_of_mem _ he))
      fun e he => hothers e (List.mem_cons_of_mem _ he)
    exact htrans _ _ _ hfirst hrest

/-- A program keeps its postcondition whatever others do that the rely condition allows. -/
theorem Prog.Makes.ensuresUnder (hm : p.Makes es b) (hp : p.EnsuresUnder act rely post v)
    (hs : Steps act es v w)
    (hothers : ∀ e ∈ es, e.mine = false → ∀ v w, act v e.request e.reply w → rely v w) :
    post b w := by
  induction p generalizing es v with
  | ret a =>
    obtain ⟨hes, rfl⟩ := hm
    exact hp w (hs.relied hrefl htrans hes hothers)
  | call q k ih =>
    obtain ⟨others, r, rest, rfl, hes, hrest⟩ := hm
    obtain ⟨x, hx, hown⟩ := hs.append_inv
    have hrely := hx.relied hrefl htrans hes fun e he => hothers e (List.mem_append_left _ he)
    cases hown with
    | cons first hafter =>
      exact ih r hrest (hp x hrely r _ first) hafter fun e he =>
        hothers e (List.mem_append_right _ (List.mem_cons_of_mem _ he))

end Rely

section Unnoticed
variable {p : Prog Q R α} {post : α → V → Prop}

/-- Without others that change what is seen. -/
theorem Prog.ensures_iff_under :
    p.Ensures act post v ↔ p.EnsuresUnder act (fun v w => w = v) post v := by
  induction p generalizing v with
  | ret a => simp [Ensures, EnsuresUnder]
  | call q k ih => simp [Ensures, EnsuresUnder, ih]

theorem Prog.Ensures.mono {post' : α → V → Prop} (h : p.Ensures act post v)
    (hpost : ∀ a w, post a w → post' a w) : p.Ensures act post' v :=
  ensures_iff_under.mpr ((ensures_iff_under.mp h).mono hpost)

/-- A program keeps its postcondition whatever others do that the machine does not notice. -/
theorem Prog.Makes.ensures (hm : p.Makes es b) (hp : p.Ensures act post v) (hs : Steps act es v w)
    (hothers : ∀ e ∈ es, e.mine = false → ∀ v w, act v e.request e.reply w → w = v) : post b w := by
  refine hm.ensuresUnder ?_ ?_ (ensures_iff_under.mp hp) hs hothers
  · exact fun v => rfl
  · exact fun u v w hvu hwv => hwv.trans hvu

end Unnoticed
end Requests
