import Mathlib.Data.List.Basic

/-! Walks down a tree along a path, in which a component is looked up in the list of the entries of a
directory. Two ways to look components up lead to the same entries just in case they agree along the
path. -/
namespace TreeWalk
variable {C E : Type*}

/-- How a component is looked up in front of the last one, and how the last one is. -/
structure Lookup (C E : Type*) where
  inner : C → List E → Option E
  last : C → List E → Option E

/-- The entry that a path leads to, from a directory on. -/
def walk (children : E → Option (List E)) (k : Lookup C E) : List C → List E → Option E
  | [], _ => none
  | [c], dir => k.last c dir
  | c :: next :: rest, dir =>
    ((k.inner c dir).bind children).bind (walk children k (next :: rest))

/-- The directory that the last component of a path is looked up in. -/
def walkDir (children : E → Option (List E)) (k : Lookup C E) : List C → List E → Option (List E)
  | [], _ => none
  | [_], dir => some dir
  | c :: next :: rest, dir =>
    ((k.inner c dir).bind children).bind (walkDir children k (next :: rest))

/-- The entries that are picked one after the other along a path, down to the one it leads to. -/
inductive Leads (children : E → Option (List E)) (k : Lookup C E) : List C → List E → E → Prop
  | last {c : C} {dir : List E} {e : E} (pick : k.last c dir = some e) :
      Leads children k [c] dir e
  | inner {c next : C} {rest : List C} {dir below : List E} {f e : E}
      (pick : k.inner c dir = some f) (down : children f = some below)
      (leads : Leads children k (next :: rest) below e) :
      Leads children k (c :: next :: rest) dir e

/-- Two ways to look up pick the same along a path. Where they first pick different entries, neither
has the rest of the path below it. -/
inductive Agree (children : E → Option (List E)) (k k' : Lookup C E) : List C → List E → Prop
  | last {c : C} {dir : List E} (same : k.last c dir = k'.last c dir) : Agree children k k' [c] dir
  | same {c next : C} {rest : List C} {dir : List E} (same : k.inner c dir = k'.inner c dir)
      (below : ∀ f ∈ k.inner c dir, ∀ b ∈ children f, Agree children k k' (next :: rest) b) :
      Agree children k k' (c :: next :: rest) dir
  | apart {c next : C} {rest : List C} {dir : List E} (differ : k.inner c dir ≠ k'.inner c dir)
      (left : ∀ e, ¬ Leads children k (c :: next :: rest) dir e)
      (right : ∀ e, ¬ Leads children k' (c :: next :: rest) dir e) :
      Agree children k k' (c :: next :: rest) dir

/-- The entry `e` lies `n` steps below the entry `f`. -/
inductive Below (children : E → Option (List E)) (f : E) : Nat → E → Prop
  | child {dir : List E} {e : E} (down : children f = some dir) (mem : e ∈ dir) :
      Below children f 0 e
  | step {n : Nat} {g e : E} {dir : List E} (above : Below children f n g)
      (down : children g = some dir) (mem : e ∈ dir) : Below children f (n + 1) e

/-- What a way to look up picks is in the directory. -/
structure Picks (k : Lookup C E) : Prop where
  inner : ∀ c dir, ∀ e ∈ k.inner c dir, e ∈ dir
  last : ∀ c dir, ∀ e ∈ k.last c dir, e ∈ dir

/-- A tree: below entries that are live there are live ones, and each lies in the directory of one. -/
structure Tree (children : E → Option (List E)) (live : E → Prop) : Prop where
  child : ∀ f dir, live f → children f = some dir → ∀ e ∈ dir, live e
  parent : ∀ f g dir dir' e, live f → live g → children f = some dir → children g = some dir' →
    e ∈ dir → e ∈ dir' → f = g

section Walks
variable {children : E → Option (List E)} {k k' : Lookup C E}

theorem walk_eq_some_iff {cs : List C} {dir : List E} {e : E} :
    walk children k cs dir = some e ↔ Leads children k cs dir e := by
  induction cs generalizing dir with
  | nil =>
    constructor
    · intro h
      cases h
    · intro h
      cases h
  | cons c cs ih =>
    cases cs with
    | nil =>
      constructor
      · exact .last
      · intro h
        cases h with
        | last pick => exact pick
    | cons next rest =>
      constructor
      · intro h
        obtain ⟨below, hd, hb⟩ := Option.bind_eq_some_iff.mp h
        obtain ⟨f, hf, hc⟩ := Option.bind_eq_some_iff.mp hd
        exact .inner hf hc (ih.mp hb)
      · intro h
        cases h with
        | inner pick down leads =>
          rw [walk, pick, Option.bind_some, down]
          exact ih.mpr leads

theorem walk_eq_none_iff {cs : List C} {dir : List E} :
    walk children k cs dir = none ↔ ∀ e, ¬ Leads children k cs dir e := by
  rw [Option.eq_none_iff_forall_ne_some]
  exact forall_congr' fun e => not_congr walk_eq_some_iff

/-- A walk depends on how its components are looked up only. -/
theorem walk_congr {cs : List C} {dir : List E}
    (h : ∀ c ∈ cs, ∀ dir, k.inner c dir = k'.inner c dir ∧ k.last c dir = k'.last c dir) :
    walk children k cs dir = walk children k' cs dir := by
  induction cs generalizing dir with
  | nil => rfl
  | cons c cs ih =>
    obtain ⟨hinner, hlast⟩ := h c List.mem_cons_self dir
    cases cs with
    | nil => exact hlast
    | cons next rest =>
      rw [walk, walk, hinner]
      exact Option.bind_congr fun below _ => ih fun x hx => h x (List.mem_cons_of_mem _ hx)

/-- A path that leads somewhere has a directory for its last component. -/
theorem Leads.walkDir {cs : List C} {dir : List E} {e : E} (h : Leads children k cs dir e) :
    (TreeWalk.walkDir children k cs dir).isSome := by
  induction h with
  | last _ => rfl
  | inner pick down _ ih =>
    rw [TreeWalk.walkDir, pick, Option.bind_some, down]
    exact ih

/-- What a path leads to lies as many steps below the directory that the path starts in as the path
has components. -/
theorem Leads.depth (hk : Picks k) {f : E} {cs : List C} {dir : List E} {e : E}
    (h : Leads children k cs dir e) {n : Nat} (hdir : ∀ g ∈ dir, Below children f n g) :
    Below children f (n + cs.length - 1) e := by
  induction h generalizing n with
  | last pick => exact hdir _ (hk.last _ _ _ pick)
  | @inner c next rest dir below g e pick down _ ih =>
    have h := ih fun a ha => .step (hdir g (hk.inner _ _ _ pick)) down ha
    have hlen : n + 1 + (next :: rest).length - 1 = n + (c :: next :: rest).length - 1 := by
      simp only [List.length_cons]
      omega
    exact hlen ▸ h

theorem Below.live {live : E → Prop} (ht : Tree children live) {f e : E} {n : Nat}
    (h : Below children f n e) (hf : live f) : live e := by
  induction h with
  | child down mem => exact ht.child _ _ hf down _ mem
  | step _ down mem ih => exact ht.child _ _ ih down _ mem

/-- In a tree in which every entry lies in one directory, what lies as deep below two entries shows
that they are one. -/
theorem Tree.below_unique {live : E → Prop} (ht : Tree children live) {f g e : E} {n : Nat}
    (hf : live f) (hg : live g) (h : Below children f n e) (h' : Below children g n e) : f = g := by
  induction h with
  | child down mem =>
    cases h' with
    | child down' mem' => exact ht.parent _ _ _ _ _ hf hg down down' mem mem'
  | @step n a e dir above down mem ih =>
    cases h' with
    | @step _ b _ dir' above' down' mem' =>
      have hab : a = b := ht.parent _ _ _ _ _ (above.live ht hf) (above'.live ht hg) down down' mem mem'
      exact ih (hab ▸ above')

section Agreement
variable {live : E → Prop} (hk : Picks k) (hk' : Picks k') (ht : Tree children live)
include hk hk' ht

/-- Where the first picks differ, the two walks can only both fail. -/
theorem walk_apart {c next : C} {rest : List C} {dir : List E} (hdir : ∀ e ∈ dir, live e)
    (hne : k.inner c dir ≠ k'.inner c dir)
    (h : walk children k (c :: next :: rest) dir = walk children k' (c :: next :: rest) dir) (e : E) :
    ¬ Leads children k (c :: next :: rest) dir e := by
  intro hleads
  have hleads' := walk_eq_some_iff.mp (h ▸ walk_eq_some_iff.mpr hleads)
  cases hleads with
  | @inner _ _ _ _ below f _ pick down leads =>
    cases hleads' with
    | @inner _ _ _ _ below' g _ pick' down' leads' =>
      have hlies := leads.depth hk fun a ha => Below.child down ha
      have hlies' := leads'.depth hk' fun a ha => Below.child down' ha
      have hfg : f = g := ht.below_unique (hdir f (hk.inner _ _ _ pick))
        (hdir g (hk'.inner _ _ _ pick')) hlies hlies'
      exact hne (pick.trans (hfg ▸ pick'.symm))

theorem walk_eq_iff {cs : List C} (hcs : cs ≠ []) {dir : List E} (hdir : ∀ e ∈ dir, live e) :
    walk children k cs dir = walk children k' cs dir ↔ Agree children k k' cs dir := by
  induction cs generalizing dir with
  | nil => exact absurd rfl hcs
  | cons c cs ih =>
    cases cs with
    | nil =>
      constructor
      · exact .last
      · intro h
        cases h with
        | last same => exact same
    | cons next rest =>
      by_cases same : k.inner c dir = k'.inner c dir
      · constructor
        · intro h
          refine .same same fun f hf b hb => ?_
          rw [walk, walk, ← same, hf, Option.bind_some, hb] at h
          exact (ih (List.cons_ne_nil _ _)
            (ht.child f b (hdir f (hk.inner c dir f hf)) hb)).mp h
        · intro h
          cases h with
          | same _ below =>
            rw [walk, walk, ← same]
            cases hf : k.inner c dir with
            | none => rfl
            | some f =>
              cases hb : children f with
              | none => rw [Option.bind_some, hb]; rfl
              | some b =>
                rw [Option.bind_some, hb]
                exact (ih (List.cons_ne_nil _ _)
                  (ht.child f b (hdir f (hk.inner c dir f hf)) hb)).mpr (below f hf b hb)
          | apart differ _ _ => exact absurd same differ
      · constructor
        · intro h
          exact .apart same (walk_apart hk hk' ht hdir same h)
            (walk_apart hk' hk ht hdir (Ne.symm same) h.symm)
        · intro h
          cases h with
          | same eq _ => exact absurd eq same
          | apart _ left right =>
            rw [walk_eq_none_iff.mpr left, walk_eq_none_iff.mpr right]

end Agreement
end Walks
end TreeWalk
