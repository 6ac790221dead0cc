import Mathlib.Data.List.Perm.Subperm
import MalapropOS.Lib.Lockstep
import MalapropOS.Scheduler.Linked

/-! The queues in memory hold the lists of the model. Every function of the scheduler does to the
memory what its model does to the lists, in every run from the start. -/
namespace MalapropOS.Scheduler.Linked
open TailQueue

/-- The heads that are initialised: the four of the scheduler, and those of the copies of the
process list, with the elements that they have. -/
def heads (listed : Nat → Option (List (Nat × Pcb))) : Set Head :=
  { h | ∀ a, h = .result a → (listed a).isSome }

/-- The queues are intact, and their elements are in the part of the heap that is given away. -/
structure Shape (listed : Nat → Option (List (Nat × Pcb))) (m : Memory) (elems : Head → List Nat) :
    Prop where
  family : Family 0 m.links (heads listed) elems
  below : ∀ h ∈ heads listed, ∀ a ∈ elems h, a < m.heapTop
  resultBelow : ∀ a, (listed a).isSome → a < m.heapTop
  top : 0 < m.heapTop

/-- What the queues hold. -/
def stateOf (m : Memory) (elems : Head → List Nat) (prio : Int → Int) : State where
  currentPid := m.currentPid
  nextPid := m.nextPid
  currentStackBreak := m.currentStackBreak
  events := (elems .events).map m.event
  processList := (elems .processList).map m.pcb
  lowQueue := (elems .lowPriorityQueue).map m.pid
  highQueue := (elems .highPriorityQueue).map m.pid
  prio := prio

structure Represents (listed : Nat → Option (List (Nat × Pcb))) (m : Memory) (elems : Head → List Nat)
    (s : State) : Prop where
  shape : Shape listed m elems
  state : ∃ prio, s = stateOf m elems prio
  results : ∀ a ps, listed a = some ps → (elems (.result a)).map (fun x => (x, m.pcb x)) = ps

theorem map_update_fresh {α β : Type*} [DecidableEq α] {f : α → β} {a : α} {v : β} {xs : List α}
    (ha : a ∉ xs) : xs.map (Function.update f a v) = xs.map f :=
  List.map_congr_left fun _ hx => Function.update_of_ne (ne_of_mem_of_not_mem hx ha) _ _

theorem map_pairs_fresh {α β : Type*} [DecidableEq α] {f : α → β} {a : α} {v : β} {xs : List α}
    (ha : a ∉ xs) : xs.map (fun x => (x, Function.update f a v x)) = xs.map fun x => (x, f x) :=
  List.map_congr_left fun x hx => by rw [Function.update_of_ne (ne_of_mem_of_not_mem hx ha)]

section Queues
variable {listed : Nat → Option (List (Nat × Pcb))} {m k : Memory} {elems : Head → List Nat} {s : State}
variable {h : Head}

theorem static_mem (hh : ∀ a, h ≠ .result a) : h ∈ heads listed := fun a ha => absurd ha (hh a)

theorem result_mem {a : Nat} {ps : List (Nat × Pcb)} (ha : listed a = some ps) :
    Head.result a ∈ heads listed := by
  intro b hb
  rw [← Head.result.inj hb, ha]
  rfl

theorem Shape.length_le (hs : Shape listed m elems) (hh : h ∈ heads listed) :
    (elems h).length ≤ m.heapTop := by
  have hsub : elems h ⊆ List.range m.heapTop := fun a ha => List.mem_range.mpr (hs.below h hh a ha)
  simpa using ((hs.family.queue h hh).nodup.subperm hsub).length_le

theorem Shape.fresh (hs : Shape listed m elems) (hh : h ∈ heads listed) : m.heapTop ∉ elems h :=
  fun ha => absurd (hs.below h hh _ ha) (lt_irrefl _)

theorem Shape.first (hs : Shape listed m elems) (hh : h ∈ heads listed) :
    m.first h = (elems h).head?.getD 0 := (hs.family.queue h hh).ref_first

/-- A new element at the tail. -/
theorem Shape.append (hs : Shape listed m elems) (hh : h ∈ heads listed)
    (hlinks : k.links = TailQueue.insertTail 0 m.links h m.heapTop) (htop : m.heapTop < k.heapTop) :
    Shape listed k (Function.update elems h (elems h ++ [m.heapTop])) := by
  refine ⟨?_, fun j hj a ha => ?_, fun a ha => (hs.resultBelow a ha).trans htop, hs.top.trans htop⟩
  · rw [hlinks]
    exact hs.family.insertTail hh hs.top.ne' fun j hj => hs.fresh hj
  · by_cases hjh : j = h
    · rw [hjh, Function.update_self, List.mem_append, List.mem_singleton] at ha
      obtain ha | rfl := ha
      · exact (hs.below h hh a ha).trans htop
      · exact htop
    · rw [Function.update_of_ne hjh] at ha
      exact (hs.below j hj a ha).trans htop

/-- A loop that takes the elements with `p` out of the queue. -/
theorem removal_loop (hs : Shape listed m elems) (hh : h ∈ heads listed) (pid : Int) :
    ∃ links, removeFrom h pid m = some { m with links := links } ∧
      Shape listed { m with links := links }
        (Function.update elems h ((elems h).filter fun a => m.pid a ≠ pid)) := by
  have hrun : ∃ t, loop h (fun item m => some (if m.pid item = pid then remove h item m else m)) m =
      some t ∧ ∃ links, t = { m with links := links } ∧ Family 0 links (heads listed)
        (Function.update elems h ((elems h).filter (fun a => m.pid a ≠ pid) ++ [])) := by
    rw [loop, hs.first hh]
    refine forEach_rule (fun done rest t => ∃ links, t = { m with links := links } ∧
      Family 0 links (heads listed)
        (Function.update elems h (done.filter (fun a => m.pid a ≠ pid) ++ rest)))
      (hs.family.ne_null hh) (hs.length_le hh) ⟨m.links, rfl, by simpa using hs.family⟩ ?_
    rintro done a rest t - ⟨links, rfl, hfamily⟩
    have hq := hfamily.queue h hh
    rw [Function.update_self] at hq
    refine ⟨_, rfl, ?_⟩
    by_cases hp : m.pid a = pid
    · have hr := hfamily.remove hh (Function.update_self ..)
      rw [if_pos hp]
      refine ⟨hq.unlink_next, _, rfl, ?_⟩
      simpa [List.filter_append, hp] using hr
    · rw [if_neg hp]
      refine ⟨hq.ref_next, links, rfl, ?_⟩
      simpa [List.filter_append, hp] using hfamily
  obtain ⟨t, ht, links, rfl, hfamily⟩ := hrun
  rw [List.append_nil] at hfamily
  refine ⟨links, ht, hfamily, fun j hj a ha => ?_, hs.resultBelow, hs.top⟩
  by_cases hjh : j = h
  · rw [hjh, Function.update_self] at ha
    exact hs.below h hh a (List.mem_of_mem_filter ha)
  · rw [Function.update_of_ne hjh] at ha
    exact hs.below j hj a ha

/-- The queue of one of the two priorities, with another list in it. -/
def withQueue (h : Head) (f : List Int → List Int) (s : State) : State :=
  match h with
  | .lowPriorityQueue => { s with lowQueue := f s.lowQueue }
  | .highPriorityQueue => { s with highQueue := f s.highQueue }
  | _ => s

theorem stateOf_update {f : List Int → List Int} {xs : List Nat} {prio : Int → Int}
    (hh : h = .lowPriorityQueue ∨ h = .highPriorityQueue)
    (hxs : xs.map m.pid = f ((elems h).map m.pid)) :
    stateOf m (Function.update elems h xs) prio = withQueue h f (stateOf m elems prio) := by
  rcases hh with rfl | rfl <;> simp [stateOf, withQueue, hxs]

theorem Represents.results_update (hr : Represents listed m elems s) {xs : List Nat}
    (hh : h = .lowPriorityQueue ∨ h = .highPriorityQueue) :
    ∀ a ps, listed a = some ps →
      (Function.update elems h xs (.result a)).map (fun x => (x, m.pcb x)) = ps := by
  intro a ps ha
  rw [Function.update_of_ne (by rcases hh with rfl | rfl <;> simp)]
  exact hr.results a ps ha

theorem Represents.removeFrom (hr : Represents listed m elems s)
    (hh : h = .lowPriorityQueue ∨ h = .highPriorityQueue) (pid : Int) :
    ∃ m' elems', removeFrom h pid m = some m' ∧ elems' .processList = elems .processList ∧
      Represents listed m' elems' (withQueue h (fun l => l.filter (· ≠ pid)) s) := by
  have hmem : h ∈ heads listed := by rcases hh with rfl | rfl <;> exact static_mem (by simp)
  obtain ⟨links, hrun, hshape⟩ := removal_loop hr.shape hmem pid
  refine ⟨_, _, hrun, Function.update_of_ne (by rcases hh with rfl | rfl <;> simp) _ _, hshape, ?_,
    hr.results_update hh⟩
  have hmap : ((elems h).filter fun a => m.pid a ≠ pid).map m.pid =
      ((elems h).map m.pid).filter (· ≠ pid) := by
    rw [List.filter_map]
    rfl
  obtain ⟨prio, rfl⟩ := hr.state
  exact ⟨prio, (stateOf_update hh hmap).symm⟩

theorem Represents.appendPid (hr : Represents listed m elems s)
    (hh : h = .lowPriorityQueue ∨ h = .highPriorityQueue) (pid : Int) :
    ∃ elems', elems' .processList = elems .processList ∧
      Represents listed (appendPid h pid m) elems' (withQueue h (· ++ [pid]) s) := by
  have hmem : h ∈ heads listed := by rcases hh with rfl | rfl <;> exact static_mem (by simp)
  have hlow := hr.shape.fresh (static_mem (h := .lowPriorityQueue) (by simp))
  have hhigh := hr.shape.fresh (static_mem (h := .highPriorityQueue) (by simp))
  refine ⟨_, Function.update_of_ne (by rcases hh with rfl | rfl <;> simp) _ _,
    hr.shape.append hmem rfl (Nat.lt_add_of_pos_right (by decide)), ?_, hr.results_update hh⟩
  obtain ⟨prio, rfl⟩ := hr.state
  refine ⟨prio, ?_⟩
  rcases hh with rfl | rfl <;>
    simp [stateOf, withQueue, Linked.appendPid, insertTail, stdmemAllocate, map_update_fresh hlow,
      map_update_fresh hhigh]

theorem Represents.removePid (hr : Represents listed m elems s) (pid priority : Int) :
    ∃ m' elems', removePid pid priority m = some m' ∧ elems' .processList = elems .processList ∧
      Represents listed m' elems' (Scheduler.removePid pid priority s) := by
  by_cases h0 : priority = 0
  · obtain ⟨m₁, elems₁, h₁, hp₁, hr₁⟩ := hr.removeFrom (Or.inr rfl) pid
    obtain ⟨m₂, elems₂, h₂, hp₂, hr₂⟩ := hr₁.removeFrom (Or.inl rfl) pid
    refine ⟨m₂, elems₂, ?_, hp₂.trans hp₁, ?_⟩
    · rw [Linked.removePid, if_pos h0, h₁]
      exact h₂
    · rw [Scheduler.removePid, if_pos h0]
      exact hr₂
  · by_cases h1 : priority = 1
    · rw [Linked.removePid, Scheduler.removePid, if_neg h0, if_neg h0, if_pos h1, if_pos h1]
      exact hr.removeFrom (Or.inl rfl) pid
    · rw [Linked.removePid, Scheduler.removePid, if_neg h0, if_neg h0, if_neg h1, if_neg h1]
      exact ⟨m, elems, rfl, rfl, hr⟩

theorem Represents.addPid (hr : Represents listed m elems s) (pid priority : Int) :
    ∃ elems', elems' .processList = elems .processList ∧
      Represents listed (addPid pid priority m) elems' (Scheduler.addPid pid priority s) := by
  by_cases h0 : priority = 0
  · obtain ⟨elems₁, hp₁, hr₁⟩ := hr.appendPid (Or.inr rfl) pid
    obtain ⟨elems₂, hp₂, hr₂⟩ := hr₁.appendPid (Or.inl rfl) pid
    refine ⟨elems₂, hp₂.trans hp₁, ?_⟩
    rw [Linked.addPid, Scheduler.addPid, if_pos h0, if_pos h0]
    exact hr₂
  · by_cases h1 : priority = 1
    · rw [Linked.addPid, Scheduler.addPid, if_neg h0, if_neg h0, if_pos h1, if_pos h1]
      exact hr.appendPid (Or.inl rfl) pid
    · rw [Linked.addPid, Scheduler.addPid, if_neg h0, if_neg h0, if_neg h1, if_neg h1]
      exact ⟨elems, rfl, hr⟩

/-- The history variable does not matter. -/
theorem Represents.notePriority (hr : Represents listed m elems s) (pid priority : Int) :
    Represents listed m elems (notePriority pid priority s) := by
  obtain ⟨prio, rfl⟩ := hr.state
  rw [Scheduler.notePriority]
  split_ifs
  · exact ⟨hr.shape, ⟨_, rfl⟩, hr.results⟩
  · exact hr

theorem Represents.setPriority (hr : Represents listed m elems s) (pid priority : Int) :
    ∃ m' elems', setPriority pid priority m = some m' ∧
      elems' .processList = elems .processList ∧
      Represents listed m' elems' (Scheduler.setPriority pid priority s) := by
  obtain ⟨m₁, elems₁, h₁, hp₁, hr₁⟩ := hr.removePid pid priority
  obtain ⟨elems₂, hp₂, hr₂⟩ := hr₁.addPid pid priority
  refine ⟨_, elems₂, ?_, hp₂.trans hp₁, hr₂.notePriority pid priority⟩
  rw [Linked.setPriority, h₁]
  rfl

theorem Shape.rotate (hs : Shape listed m elems) (hh : h ∈ heads listed) {a : Nat} {xs : List Nat}
    (ha : elems h = a :: xs) :
    Shape listed (insertTail h a (remove h a m)) (Function.update elems h (xs ++ [a])) := by
  have hall : ∀ x ∈ a :: xs, x < m.heapTop := ha ▸ hs.below h hh
  have hnodup : (a :: xs).Nodup := ha ▸ (hs.family.queue h hh).nodup
  have hremoved := hs.family.remove hh (show elems h = [] ++ a :: xs from ha)
  rw [List.nil_append] at hremoved
  have hadded := hremoved.insertTail hh (a := a)
    (hs.family.ne_null hh a (ha ▸ List.mem_cons_self)) fun k hk => ?_
  · rw [Function.update_self, Function.update_idem] at hadded
    refine ⟨hadded, fun j hj x hx => ?_, hs.resultBelow, hs.top⟩
    by_cases hjh : j = h
    · rw [hjh, Function.update_self] at hx
      exact hall x (by simpa [or_comm] using hx)
    · rw [Function.update_of_ne hjh] at hx
      exact hs.below j hj x hx
  · by_cases hkh : k = h
    · rw [hkh, Function.update_self]
      exact (List.nodup_cons.mp hnodup).1
    · rw [Function.update_of_ne hkh]
      exact hs.family.apart h hh k hk (Ne.symm hkh) (ha ▸ List.mem_cons_self)

/-- The queue of a priority, as a list of the model. -/
def queueOf (h : Head) (s : State) : List Int :=
  if h = .highPriorityQueue then s.highQueue else s.lowQueue

theorem queueOf_state (hr : Represents listed m elems s)
    (hh : h = .lowPriorityQueue ∨ h = .highPriorityQueue) :
    queueOf h s = (elems h).map m.pid := by
  obtain ⟨prio, rfl⟩ := hr.state
  rcases hh with rfl | rfl <;> rfl

theorem Represents.takeTurn (hr : Represents listed m elems s)
    (hh : h = .lowPriorityQueue ∨ h = .highPriorityQueue) :
    (queueOf h s = [] ∧ takeTurn h m = (-1, m)) ∨
    ∃ x xs elems', queueOf h s = x :: xs ∧ (takeTurn h m).1 = x ∧
      Represents listed (takeTurn h m).2 elems' (withQueue h (fun _ => xs ++ [x]) s) := by
  have hmem : h ∈ heads listed := by rcases hh with rfl | rfl <;> exact static_mem (by simp)
  have hfirst := hr.shape.first hmem
  rw [queueOf_state hr hh]
  cases he : elems h with
  | nil =>
    rw [he] at hfirst
    exact Or.inl ⟨rfl, by simp [Linked.takeTurn, hfirst]⟩
  | cons a xs =>
    rw [he, List.head?_cons, Option.getD_some] at hfirst
    have ha : a ≠ 0 := hr.shape.family.ne_null hmem a (he ▸ List.mem_cons_self)
    have ht : Linked.takeTurn h m = (m.pid a, insertTail h a (remove h a m)) := by
      simp [Linked.takeTurn, hfirst, ha]
    refine Or.inr ⟨m.pid a, xs.map m.pid, Function.update elems h (xs ++ [a]), rfl, by rw [ht], ?_⟩
    rw [ht]
    obtain ⟨prio, rfl⟩ := hr.state
    exact ⟨hr.shape.rotate hmem he, ⟨prio, (stateOf_update hh (by simp)).symm⟩, hr.results_update hh⟩

theorem Represents.getNextProcess (hr : Represents listed m elems s) (priority : Int) :
    ∃ elems', (getNextProcess priority m).1 = (Scheduler.getNextProcess priority s).1 ∧
      Represents listed (getNextProcess priority m).2 elems'
        (Scheduler.getNextProcess priority s).2 := by
  by_cases h0 : priority = 0
  · rw [Linked.getNextProcess, Scheduler.getNextProcess, if_pos h0, if_pos h0]
    obtain ⟨hq, ht⟩ | ⟨x, xs, elems', hq, hx, hr'⟩ := hr.takeTurn (Or.inr rfl)
    · rw [show s.highQueue = [] from hq, ht]
      exact ⟨elems, rfl, hr⟩
    · rw [show s.highQueue = x :: xs from hq]
      exact ⟨elems', hx, hr'⟩
  · rw [Linked.getNextProcess, Scheduler.getNextProcess, if_neg h0, if_neg h0]
    by_cases h1 : priority = 1
    · rw [if_pos h1, if_pos h1]
      obtain ⟨hq, ht⟩ | ⟨x, xs, elems', hq, hx, hr'⟩ := hr.takeTurn (Or.inl rfl)
      · rw [show s.lowQueue = [] from hq, ht]
        exact ⟨elems, rfl, hr⟩
      · rw [show s.lowQueue = x :: xs from hq]
        exact ⟨elems', hx, hr'⟩
    · rw [if_neg h1, if_neg h1]
      exact ⟨elems, rfl, hr⟩

theorem Represents.chooseNext (hr : Represents listed m elems s) :
    ∃ elems', (chooseNext m).1 = (Scheduler.chooseNext s).1 ∧
      Represents listed (chooseNext m).2 elems' (Scheduler.chooseNext s).2 := by
  obtain ⟨elems₁, hp, hr₁⟩ := hr.getNextProcess 0
  rw [Linked.chooseNext, Scheduler.chooseNext, hp]
  split_ifs
  · exact hr₁.getNextProcess 1
  · exact ⟨elems₁, hp, hr₁⟩

section Processes

theorem Represents.processList_eq (hr : Represents listed m elems s) :
    s.processList = (elems .processList).map m.pcb := by
  obtain ⟨prio, rfl⟩ := hr.state
  rfl

theorem Represents.currentPid_eq (hr : Represents listed m elems s) : s.currentPid = m.currentPid := by
  obtain ⟨prio, rfl⟩ := hr.state
  rfl

theorem findProcess_eq (hr : Represents listed m elems s) (pid : Int) : findProcess m pid =
    some (((elems .processList).find? fun a => (m.pcb a).pid = pid).getD 0) := by
  have hmem : Head.processList ∈ heads listed := static_mem (by simp)
  exact findFirst_eq (hr.shape.family.queue _ hmem).elements (hr.shape.length_le hmem)

theorem findProcess_list (hr : Represents listed m elems s) (pid : Int) :
    Scheduler.findProcess s pid =
      ((elems .processList).find? fun a => (m.pcb a).pid = pid).map m.pcb := by
  rw [Scheduler.findProcess, hr.processList_eq, List.find?_map]
  rfl

/-- Writing to the first element with the pid. -/
theorem updateProcess_map {f : Pcb → Pcb} {pcb : Nat → Pcb} {pid : Int} {xs : List Nat} {a : Nat}
    (hn : xs.Nodup) (ha : xs.find? (fun a => (pcb a).pid = pid) = some a) :
    updateProcess pid f (xs.map pcb) = xs.map (Function.update pcb a (f (pcb a))) := by
  induction xs with
  | nil => cases ha
  | cons x xs ih =>
    obtain ⟨hx, hn⟩ := List.nodup_cons.mp hn
    rw [List.map_cons, updateProcess]
    by_cases hp : (pcb x).pid = pid
    · obtain rfl : x = a := by simpa [hp] using ha
      rw [if_pos hp, List.map_cons, Function.update_self, map_update_fresh hx]
    · have ha' : xs.find? (fun a => (pcb a).pid = pid) = some a := by simpa [hp] using ha
      have hax : x ≠ a := by
        rintro rfl
        exact hx (List.mem_of_find?_eq_some ha')
      rw [if_neg hp, List.map_cons, Function.update_of_ne hax, ih hn ha']

theorem Represents.writePcb (hr : Represents listed m elems s) {a : Nat} {f : Pcb → Pcb}
    {l : List Pcb} (ha : a ∈ elems .processList)
    (hl : l = (elems .processList).map (Function.update m.pcb a (f (m.pcb a)))) :
    ∃ m', Linked.writePcb a f m = some m' ∧ Represents listed m' elems { s with processList := l } ∧
      m'.pcb = Function.update m.pcb a (f (m.pcb a)) := by
  have hmem : Head.processList ∈ heads listed := static_mem (by simp)
  refine ⟨_, if_neg (hr.shape.family.ne_null hmem a ha), ⟨⟨hr.shape.family, hr.shape.below,
    hr.shape.resultBelow, hr.shape.top⟩, ?_, fun b ps hb => ?_⟩, rfl⟩
  · obtain ⟨prio, rfl⟩ := hr.state
    rw [hl]
    exact ⟨prio, rfl⟩
  · have hb' : a ∉ elems (.result b) :=
      hr.shape.family.apart _ hmem _ (result_mem hb) (by simp) ha
    exact (map_pairs_fresh hb').trans (hr.results b ps hb)

/-- A write through the pointer that `find_process` returns, and what follows. -/
theorem Represents.withProcess {α β : Type*} {T : α → β → Prop} {g : Memory → Option α}
    {g' : State → Option β} (hr : Represents listed m elems s) (pid : Int) (f : Pcb → Pcb)
    (hg : ∀ m' s', Represents listed m' elems s' → Option.Rel T (g m') (g' s')) :
    Option.Rel T ((findProcess m pid).bind fun a => (Linked.writePcb a f m).bind g)
      ((Scheduler.withProcess pid f s).bind g') := by
  refine Lockstep.bind_left (findProcess_eq hr pid) ?_
  rw [Scheduler.withProcess, findProcess_list hr]
  cases ha : (elems .processList).find? fun a => (m.pcb a).pid = pid with
  | none => exact .none
  | some a =>
    have hmem : Head.processList ∈ heads listed := static_mem (by simp)
    obtain ⟨m', hm', hr', -⟩ := hr.writePcb (f := f) (List.mem_of_find?_eq_some ha)
      (updateProcess_map (hr.shape.family.queue _ hmem).nodup ha)
    rw [← hr.processList_eq] at hr'
    exact Lockstep.bind_left hm' (hg _ _ hr')

/-- Both levels are at the same point, and have the same context or result. -/
abbrev Agree {α : Type*} (listed : Nat → Option (List (Nat × Pcb))) (x : Memory × α)
    (y : State × α) : Prop :=
  (∃ elems, Represents listed x.1 elems y.1) ∧ x.2 = y.2

theorem Represents.runProcess (hr : Represents listed m elems s) (pid : Int) :
    Option.Rel (Agree listed) (Linked.runProcess pid m) (Scheduler.runProcess pid s) := by
  refine Lockstep.bind_left (findProcess_eq hr pid) ?_
  rw [Scheduler.runProcess, findProcess_list hr]
  cases ha : (elems .processList).find? fun a => (m.pcb a).pid = pid with
  | none => exact .none
  | some a =>
    have hmem : Head.processList ∈ heads listed := static_mem (by simp)
    have hnull := hr.shape.family.ne_null hmem a (List.mem_of_find?_eq_some ha)
    refine Lockstep.bind_left (if_neg hnull) (.some ⟨⟨elems, ?_⟩, rfl⟩)
    obtain ⟨prio, rfl⟩ := hr.state
    exact ⟨⟨hr.shape.family, hr.shape.below, hr.shape.resultBelow, hr.shape.top⟩, ⟨prio, rfl⟩,
      hr.results⟩

theorem Represents.schedulerRun (hr : Represents listed m elems s) (ctx : Ctx) :
    Option.Rel (Agree listed) (schedulerRun m ctx) (Scheduler.schedulerRun s ctx) := by
  obtain ⟨elems', hp, hr'⟩ := hr.chooseNext
  have h := hr'.withProcess (Linked.chooseNext m).2.currentPid (fun p => { p with ctx := ctx })
    fun m' s' h => h.runProcess (Linked.chooseNext m).1
  rw [Scheduler.schedulerRun, Scheduler.saveCurrentProcess, hr'.currentPid_eq, ← hp]
  simpa [Linked.schedulerRun, Linked.saveCurrentProcess, Option.bind_assoc] using h

end Processes

section Events
variable {event : Event}

theorem Represents.recordEvent (hr : Represents listed m elems s) (event : Event) :
    ∃ elems', elems' .processList = elems .processList ∧
      Represents listed (recordEvent event m) elems' (Scheduler.recordEvent event s) := by
  rw [Linked.recordEvent, Scheduler.recordEvent]
  split_ifs with he
  · have hmem : Head.events ∈ heads listed := static_mem (by simp)
    refine ⟨_, by simp, hr.shape.append hmem rfl (Nat.lt_add_of_pos_right (by decide)), ?_,
      fun a ps ha => ?_⟩
    · obtain ⟨prio, rfl⟩ := hr.state
      refine ⟨prio, ?_⟩
      simp [stateOf, insertTail, stdmemAllocate, map_update_fresh (hr.shape.fresh hmem)]
    · simpa [insertTail, stdmemAllocate] using hr.results a ps ha
  · exact ⟨elems, rfl, hr⟩

theorem setPriority_list (pid : Int) (s : State) (l : List Pcb) :
    Scheduler.setPriority pid 1 { s with processList := l } =
      { Scheduler.setPriority pid 1 s with processList := l } := rfl

theorem requeueWoken_list (ps : List Pcb) (s : State) (l : List Pcb) :
    requeueWoken event ps { s with processList := l } =
      { requeueWoken event ps s with processList := l } := by
  induction ps generalizing s with
  | nil => rfl
  | cons p ps ih =>
    rw [requeueWoken, requeueWoken, ← ih]
    split_ifs
    · rw [setPriority_list]
    · rfl

theorem requeueWoken_concat (ps : List Pcb) (p : Pcb) (s : State) :
    requeueWoken event (ps ++ [p]) s = if wakes event p
      then Scheduler.setPriority p.pid 1 (requeueWoken event ps s) else requeueWoken event ps s := by
  induction ps generalizing s with
  | nil => rfl
  | cons q ps ih => exact ih _

/-- The model when the loop over the processes is behind those in `done`. -/
def wokenUpTo (event : Event) (done rest : List Pcb) (s : State) : State :=
  { requeueWoken event done s with processList := done.map (wake event) ++ rest }

theorem wokenUpTo_next (done : List Pcb) (p : Pcb) (rest : List Pcb) (s : State) :
    wokenUpTo event (done ++ [p]) rest s = if wakes event p
      then Scheduler.setPriority p.pid 1
        { wokenUpTo event done (p :: rest) s with
          processList := done.map (wake event) ++ wake event p :: rest }
      else wokenUpTo event done (p :: rest) s := by
  rw [wokenUpTo, requeueWoken_concat, List.map_append, List.append_assoc]
  split_ifs with hw
  · rfl
  · rw [List.map_singleton, wake, if_neg hw]
    rfl

/-- A process is woken in its place, and queued. -/
theorem Represents.wakeItem (hr : Represents listed m elems s) {done rest : List Nat} {a : Nat}
    (hx : elems .processList = done ++ a :: rest) (hw : wakes event (m.pcb a)) :
    ∃ m' elems', wakeItem event a m = some m' ∧ elems' .processList = elems .processList ∧
      Represents listed m' elems' (Scheduler.setPriority (m.pcb a).pid 1
        { s with processList := done.map m.pcb ++ wake event (m.pcb a) :: rest.map m.pcb }) := by
  have hmem : Head.processList ∈ heads listed := static_mem (by simp)
  have hn : (done ++ a :: rest).Nodup := hx ▸ (hr.shape.family.queue _ hmem).nodup
  obtain ⟨-, hrest, hdone⟩ := List.nodup_append'.mp hn
  obtain ⟨m₁, h₁, hr₁, hpcb⟩ := hr.writePcb (a := a)
    (l := done.map m.pcb ++ wake event (m.pcb a) :: rest.map m.pcb)
    (f := fun p => { p with
      status := .running, ctx := p.ctx.setGpr 0 (UInt32.ofInt event.fromProcess) })
    (hx ▸ by simp) (by
      rw [hx, List.map_append, List.map_cons, Function.update_self, wake, if_pos hw,
        map_update_fresh fun h => hdone h List.mem_cons_self,
        map_update_fresh (List.nodup_cons.mp hrest).1])
  obtain ⟨m₂, elems₂, h₂, hp₂, hr₂⟩ := hr₁.setPriority (m.pcb a).pid 1
  refine ⟨m₂, elems₂, ?_, hp₂, hr₂⟩
  have hpid : (m₁.pcb a).pid = (m.pcb a).pid := by rw [hpcb, Function.update_self]
  rw [Linked.wakeItem, if_pos hw, h₁, ← h₂, ← hpid]
  rfl

theorem Represents.schedulerEmitEvent (hr : Represents listed m elems s) (event : Event) :
    ∃ m' elems', schedulerEmitEvent event m = some m' ∧
      Represents listed m' elems' (Scheduler.schedulerEmitEvent event s) := by
  have hmem : Head.processList ∈ heads listed := static_mem (by simp)
  obtain ⟨elems₁, -, hr₁⟩ := hr.recordEvent event
  rw [Linked.schedulerEmitEvent, Scheduler.schedulerEmitEvent]
  generalize Linked.recordEvent event m = m₁ at hr₁ ⊢
  generalize Scheduler.recordEvent event s = s₁ at hr₁ ⊢
  have hrun : ∃ t, loop .processList (Linked.wakeItem event) m₁ = some t ∧
      ∃ elems', elems' .processList = elems₁ .processList ∧ Represents listed t elems'
        (wokenUpTo event ((elems₁ .processList).map m₁.pcb) [] s₁) := by
    rw [loop, hr₁.shape.first hmem]
    refine forEach_rule (fun done rest t => ∃ elems', elems' .processList = elems₁ .processList ∧
      Represents listed t elems' (wokenUpTo event (done.map m₁.pcb) (rest.map m₁.pcb) s₁))
      (hr₁.shape.family.ne_null hmem) (hr₁.shape.length_le hmem) ⟨elems₁, rfl, ?_⟩ ?_
    · have hstate : wokenUpTo event [] ((elems₁ .processList).map m₁.pcb) s₁ = s₁ := by
        rw [← hr₁.processList_eq]
        rfl
      exact hstate ▸ hr₁
    · rintro done a rest t hd ⟨elems', hp, hr'⟩
      have hx : elems' .processList = done ++ a :: rest := hp.trans hd.symm
      have hlist := hr'.processList_eq
      rw [hx, List.map_append, wokenUpTo] at hlist
      obtain ⟨hdone, hrest⟩ := List.append_inj hlist (by simp)
      obtain ⟨ha, hrest⟩ := List.cons.inj hrest
      rw [List.map_append, List.map_singleton, wokenUpTo_next]
      by_cases hw : wakes event (m₁.pcb a)
      · obtain ⟨t', elems₂, ht', hp₂, hr₂⟩ := hr'.wakeItem hx (ha ▸ hw)
        rw [← hdone, ← ha, ← hrest] at hr₂
        have hq := hr₂.shape.family.queue _ hmem
        rw [hp₂, hx] at hq
        rw [if_pos hw]
        exact ⟨t', ht', hq.ref_next, elems₂, hp₂.trans hp, hr₂⟩
      · have hq := hr'.shape.family.queue _ hmem
        rw [hx] at hq
        rw [if_neg hw]
        exact ⟨t, if_neg (ha ▸ hw), hq.ref_next, elems', hp, hr'⟩
  obtain ⟨t, ht, elems', -, hr'⟩ := hrun
  refine ⟨t, elems', ht, ?_⟩
  rw [wokenUpTo, List.append_nil, ← hr₁.processList_eq] at hr'
  rw [wakeAll, requeueWoken_list]
  exact hr'

end Events

section Calls

theorem removePid_currentPid (pid priority : Int) (s : State) :
    (Scheduler.removePid pid priority s).currentPid = s.currentPid := by
  rw [Scheduler.removePid]
  split_ifs <;> rfl

/-- A pid is taken out of the queues of both priorities. -/
theorem Represents.removeBoth {α β : Type*} {T : α → β → Prop} {g : Memory → Option α}
    {y : Option β} (hr : Represents listed m elems s) (pid : Int)
    (hg : ∀ m' elems', m'.currentPid = m.currentPid → Represents listed m' elems'
      (Scheduler.removePid pid 1 (Scheduler.removePid pid 0 s)) → Option.Rel T (g m') y) :
    Option.Rel T ((Linked.removePid pid 0 m).bind fun m => (Linked.removePid pid 1 m).bind g) y := by
  obtain ⟨m₁, elems₁, h₁, -, hr₁⟩ := hr.removePid pid 0
  obtain ⟨m₂, elems₂, h₂, -, hr₂⟩ := hr₁.removePid pid 1
  refine Lockstep.bind_left h₁ (Lockstep.bind_left h₂ (hg m₂ elems₂ ?_ hr₂))
  rw [← hr₂.currentPid_eq, removePid_currentPid, removePid_currentPid, hr.currentPid_eq]

/-- The current process is taken out. -/
theorem Represents.removeCurrent {α β : Type*} {T : α → β → Prop} {g : Memory → Option α}
    {y : Option β} (hr : Represents listed m elems s)
    (hg : ∀ m' elems', m'.currentPid = s.currentPid → Represents listed m' elems'
      (Scheduler.removePid s.currentPid 1 (Scheduler.removePid s.currentPid 0 s)) →
      Option.Rel T (g m') y) :
    Option.Rel T ((Linked.removePid m.currentPid 0 m).bind fun m =>
      (Linked.removePid m.currentPid 1 m).bind g) y := by
  have hcurrent (k : Memory) (hk : Linked.removePid m.currentPid 0 m = some k) :
      k.currentPid = m.currentPid := by
    obtain ⟨m₁, elems₁, h₁, -, hr₁⟩ := hr.removePid m.currentPid 0
    obtain rfl := Option.some.inj (h₁.symm.trans hk)
    rw [← hr₁.currentPid_eq, removePid_currentPid, hr.currentPid_eq]
  have h := hr.removeBoth (g := g) (y := y) (T := T) m.currentPid fun m' elems' hc h =>
    hg m' elems' (hc.trans hr.currentPid_eq.symm) (hr.currentPid_eq ▸ h)
  refine Eq.mp (congrArg (fun x => Option.Rel T x y) (Option.bind_congr fun k hk => ?_)) h
  rw [hcurrent k hk]

theorem Represents.schedulerBlockProcess (hr : Represents listed m elems s) (ctx : Ctx)
    (untilEvent : Event) : Option.Rel (fun x y => x.1 = y.1 ∧ Agree listed x.2 y.2)
      (schedulerBlockProcess ctx untilEvent m) (Scheduler.schedulerBlockProcess ctx untilEvent s) := by
  simp only [Linked.schedulerBlockProcess, Scheduler.schedulerBlockProcess, Linked.saveCurrentProcess,
    Scheduler.saveCurrentProcess, hr.currentPid_eq, Option.bind_eq_bind, Option.bind_assoc]
  refine hr.withProcess _ _ fun m₁ s₁ hr₁ => ?_
  rw [hr₁.currentPid_eq]
  refine hr₁.withProcess _ _ fun m₂ s₂ hr₂ => hr₂.removeCurrent fun m₃ elems₃ hc₃ hr₃ => ?_
  obtain ⟨m₄, elems₄, h₄, hr₄⟩ := hr₃.schedulerEmitEvent ⟨processEventBlocked, m₃.currentPid⟩
  rw [hc₃] at hr₄
  refine Lockstep.bind_left h₄ (Lockstep.bind (hr₄.schedulerRun ctx) fun x y hxy => ?_)
  exact .some ⟨rfl, hxy⟩

theorem Represents.schedulerHasEventOccurred (hr : Represents listed m elems s) (event : Event) :
    schedulerHasEventOccurred event m = some (Scheduler.schedulerHasEventOccurred event s) := by
  have hmem : Head.events ∈ heads listed := static_mem (by simp)
  have hfind := findFirst_eq (p := fun a => (m.event a).event = event.event ∧
    (m.event a).fromProcess = event.fromProcess) (hr.shape.family.queue _ hmem).elements
    (hr.shape.length_le hmem)
  have hevents : s.events = (elems .events).map m.event := by
    obtain ⟨prio, rfl⟩ := hr.state
    rfl
  rw [Linked.schedulerHasEventOccurred, Scheduler.schedulerHasEventOccurred, hevents, List.find?_map,
    Memory.first, hfind]
  simp only [Function.comp_def]
  cases ha : (elems .events).find? fun a => (m.event a).event = event.event ∧
      (m.event a).fromProcess = event.fromProcess with
  | none => rfl
  | some a =>
    have hnull := hr.shape.family.ne_null hmem a (List.mem_of_find?_eq_some ha)
    simp [hnull]

theorem Represents.markTerminated {α β : Type*} {T : α → β → Prop} {g : Memory → Option α}
    {g' : State → Option β} (hr : Represents listed m elems s) (pid : Int)
    (hg : ∀ m' s', Represents listed m' elems s' → Option.Rel T (g m') (g' s')) :
    Option.Rel T ((markTerminated pid m).bind g)
      ((Scheduler.withProcess pid (fun p => { p with status := .terminated }) s).bind g') := by
  have h := hr.withProcess pid (fun p => { p with status := .terminated }) hg
  simpa [Linked.markTerminated, Option.bind_assoc] using h

theorem Represents.schedulerExit (hr : Represents listed m elems s) (ctx : Ctx) :
    Option.Rel (Agree listed) (schedulerExit m ctx) (Scheduler.schedulerExit s ctx) := by
  simp only [Linked.schedulerExit, Scheduler.schedulerExit, Option.bind_eq_bind]
  refine hr.removeCurrent fun m₁ elems₁ hc₁ hr₁ => Lockstep.bind (hr₁.schedulerRun ctx) ?_
  rintro ⟨m₂, ctx₂⟩ ⟨s₂, ctx₂'⟩ ⟨⟨elems₂, hr₂⟩, rfl⟩
  rw [hr.currentPid_eq, hr₂.currentPid_eq]
  split_ifs
  · refine hr₂.markTerminated _ fun m₃ s₃ hr₃ => ?_
    obtain ⟨m₄, elems₄, h₄, hr₄⟩ := hr₃.schedulerEmitEvent ⟨processEventExited, m.currentPid⟩
    exact Lockstep.bind_left h₄ (.some ⟨⟨elems₄, hr₄⟩, rfl⟩)
  · exact .some ⟨⟨elems₂, hr₂⟩, rfl⟩

theorem Represents.schedulerKill (hr : Represents listed m elems s) (ctx : Ctx) (pid : Int) :
    Option.Rel (fun x y => x.1 = y.1 ∧ Agree listed x.2 y.2) (schedulerKill ctx pid m)
      (Scheduler.schedulerKill ctx pid s) := by
  simp only [Linked.schedulerKill, Scheduler.schedulerKill, Option.bind_eq_bind]
  refine hr.removeBoth pid fun m₁ elems₁ _ hr₁ => Lockstep.bind (hr₁.schedulerRun ctx) ?_
  rintro ⟨m₂, ctx₂⟩ ⟨s₂, ctx₂'⟩ ⟨⟨elems₂, hr₂⟩, rfl⟩
  refine hr₂.markTerminated _ fun m₃ s₃ hr₃ => ?_
  obtain ⟨m₄, elems₄, h₄, hr₄⟩ := hr₃.schedulerEmitEvent ⟨processEventExited, pid⟩
  exact Lockstep.bind_left h₄ (.some ⟨rfl, ⟨elems₄, hr₄⟩, rfl⟩)

theorem Represents.schedulerExec (hr : Represents listed m elems s) (ctx : Ctx)
    (function argc argv : UInt32) : Option.Rel (Agree listed) (schedulerExec ctx function argc argv m)
      (Scheduler.schedulerExec ctx function argc argv s) := by
  simp only [Linked.schedulerExec, Scheduler.schedulerExec, Linked.saveCurrentProcess,
    Scheduler.saveCurrentProcess, hr.currentPid_eq, Option.bind_eq_bind, Option.bind_assoc]
  refine hr.withProcess _ _ fun m₁ s₁ hr₁ => ?_
  rw [hr₁.currentPid_eq]
  exact hr₁.withProcess _ _ fun m₂ s₂ hr₂ => .some ⟨⟨elems, hr₂⟩, rfl⟩

/-- The new entry of the process list. -/
theorem Represents.addProcess (hr : Represents listed m elems s) (newPid : Int) (newBreak : UInt32)
    (child : Pcb) : ∃ elems', Represents listed
      (insertTail .processList m.heapTop { m with
        heapTop := m.heapTop + 92, nextPid := newPid, currentStackBreak := newBreak
        pcb := Function.update m.pcb m.heapTop child }) elems'
      { s with
        nextPid := newPid, currentStackBreak := newBreak,
        processList := s.processList ++ [child] } := by
  have hmem : Head.processList ∈ heads listed := static_mem (by simp)
  refine ⟨_, hr.shape.append hmem rfl (Nat.lt_add_of_pos_right (by decide)), ?_, fun a ps ha => ?_⟩
  · obtain ⟨prio, rfl⟩ := hr.state
    refine ⟨prio, ?_⟩
    simp [stateOf, insertTail, map_update_fresh (hr.shape.fresh hmem)]
  · rw [Function.update_of_ne (by simp)]
    exact (map_pairs_fresh (hr.shape.fresh (result_mem ha))).trans (hr.results a ps ha)

theorem Represents.schedulerFork (hr : Represents listed m elems s) (ctx : Ctx) (sp fp : UInt32) :
    Option.Rel (fun x y => x.1 = y.1 ∧ ∃ elems', Represents listed x.2 elems' y.2)
      (schedulerFork ctx sp fp m) (Scheduler.schedulerFork ctx sp fp s) := by
  have hnext : s.nextPid = m.nextPid ∧ s.currentStackBreak = m.currentStackBreak := by
    obtain ⟨prio, rfl⟩ := hr.state
    exact ⟨rfl, rfl⟩
  rw [Linked.schedulerFork, Scheduler.schedulerFork, hr.currentPid_eq, hnext.1, hnext.2]
  by_cases hnone : m.currentPid < 1
  · rw [if_pos hnone, if_pos hnone]
    exact .some ⟨rfl, elems, hr⟩
  rw [if_neg hnone, if_neg hnone]
  by_cases hmax : m.nextPid = 2147483647
  · have hnew : getNewPid { m with heapTop := m.heapTop + 92 } = none := if_pos hmax
    simp only [stdmemAllocate, hnew, if_pos hmax]
    exact .none
  have hnew : getNewPid { m with heapTop := m.heapTop + 92 } = some (m.nextPid, { m with
      heapTop := m.heapTop + 92, nextPid := m.nextPid + 1 }) := if_neg hmax
  simp only [stdmemAllocate, hnew, setStackBreak, if_neg hmax, Option.bind_eq_bind, Option.bind_some]
  have hr' : Represents listed { m with
      heapTop := m.heapTop + 92, nextPid := m.nextPid + 1
      currentStackBreak := m.currentStackBreak - 2000 } elems { s with
      nextPid := m.nextPid + 1, currentStackBreak := m.currentStackBreak - 2000 } := by
    obtain ⟨prio, rfl⟩ := hr.state
    exact ⟨⟨hr.shape.family, fun h hh a ha => Nat.lt_add_right 92 (hr.shape.below h hh a ha),
      fun a ha => Nat.lt_add_right 92 (hr.shape.resultBelow a ha), Nat.add_pos_left hr.shape.top 92⟩,
      ⟨prio, rfl⟩, hr.results⟩
  refine Lockstep.bind_left (findProcess_eq hr' m.currentPid) ?_
  rw [findProcess_list hr]
  cases ha : (elems .processList).find? fun a => (m.pcb a).pid = m.currentPid with
  | none => exact .none
  | some a =>
    have hmem : Head.processList ∈ heads listed := static_mem (by simp)
    have hnull := hr.shape.family.ne_null hmem a (List.mem_of_find?_eq_some ha)
    obtain ⟨elems₁, hr₁⟩ := hr.addProcess (m.nextPid + 1) (m.currentStackBreak - 2000)
      { pid := m.nextPid, ctx := forkCtx ctx m.currentStackBreak sp fp, status := .ready,
        blockedUntil := (m.pcb a).blockedUntil }
    obtain ⟨m₂, elems₂, h₂, -, hr₂⟩ := hr₁.setPriority m.nextPid 1
    obtain ⟨m₃, elems₃, h₃, hr₃⟩ := hr₂.schedulerEmitEvent ⟨processEventCreated, m.nextPid⟩
    rw [hr.currentPid_eq] at hr₃
    refine Lockstep.bind_left (if_neg hnull) (Lockstep.bind_left h₂ (Lockstep.bind_left h₃ ?_))
    exact .some ⟨rfl, elems₃, hr₃⟩

end Calls

theorem Represents.kernelHandlerSvc (hr : Represents listed m elems s) (svc : Svc) (ctx : Ctx) :
    Option.Rel (Agree listed) (kernelHandlerSvc svc m ctx) (Scheduler.kernelHandlerSvc svc s ctx) := by
  cases svc with
  | exit => exact hr.schedulerExit ctx
  | fork =>
    refine Lockstep.bind (hr.schedulerFork ctx (ctx.gpr 0) (ctx.gpr 1)) fun x y hxy => ?_
    exact .some ⟨hxy.2, by rw [hxy.1]⟩
  | waitpid =>
    rw [Linked.kernelHandlerSvc, Scheduler.kernelHandlerSvc]
    split_ifs
    · exact Lockstep.bind_left (hr.schedulerHasEventOccurred _) (.some ⟨⟨elems, hr⟩, rfl⟩)
    · refine Lockstep.bind (hr.schedulerBlockProcess ctx _) fun x y hxy => ?_
      exact .some ⟨hxy.2.1, by rw [hxy.1, hxy.2.2]⟩
  | getpid =>
    rw [Linked.kernelHandlerSvc, Scheduler.kernelHandlerSvc, schedulerGetpid, hr.currentPid_eq]
    exact .some ⟨⟨elems, hr⟩, rfl⟩
  | kill uninitialised =>
    rw [Linked.kernelHandlerSvc, Scheduler.kernelHandlerSvc]
    split_ifs
    · refine Lockstep.bind (hr.schedulerKill ctx _) fun x y hxy => ?_
      exact .some ⟨hxy.2.1, by rw [hxy.1, hxy.2.2]⟩
    · exact .some ⟨⟨elems, hr⟩, rfl⟩
  | setpriority =>
    obtain ⟨m', elems', hm', -, hr'⟩ :=
      hr.setPriority (signed (ctx.gpr 0)) (signed (ctx.gpr 2))
    exact Lockstep.bind_left (Option.bind_eq_some_iff.mpr ⟨m', hm', rfl⟩) (.some ⟨⟨elems', hr'⟩, rfl⟩)
  | yield => exact hr.schedulerRun ctx
  | exec => exact hr.schedulerExec ctx _ _ _
  | other result => exact .some ⟨⟨elems, hr⟩, rfl⟩
  | unknown => exact .some ⟨⟨elems, hr⟩, rfl⟩

theorem Represents.handle (hr : Represents listed m elems s) (trap : Trap) (ctx : Ctx) :
    Option.Rel (Agree listed) (handle trap m ctx) (Scheduler.handle trap s ctx) := by
  cases trap with
  | timer => exact hr.schedulerRun ctx
  | uart => exact .some ⟨⟨elems, hr⟩, rfl⟩
  | svc c => exact hr.kernelHandlerSvc c ctx

theorem Represents.allocate (hr : Represents listed m elems s) (n : Nat) :
    Represents listed { m with heapTop := m.heapTop + n } elems s := by
  obtain ⟨prio, rfl⟩ := hr.state
  exact ⟨⟨hr.shape.family, fun h hh a ha => Nat.lt_add_right n (hr.shape.below h hh a ha),
    fun a ha => Nat.lt_add_right n (hr.shape.resultBelow a ha), Nat.add_pos_left hr.shape.top n⟩,
    ⟨prio, rfl⟩, hr.results⟩

section Copies
variable {result : Nat}

theorem Shape.congr {listed' : Nat → Option (List (Nat × Pcb))} (hs : Shape listed m elems)
    (hl : ∀ a, (listed' a).isSome = (listed a).isSome) : Shape listed' m elems := by
  have hheads : heads listed' = heads listed := Set.ext fun h => by simp only [heads, hl]
  refine ⟨hheads ▸ hs.family, hheads ▸ hs.below, fun a ha => hs.resultBelow a ?_, hs.top⟩
  rw [← hl]
  exact ha

/-- A copy behind the ones made so far. -/
theorem Represents.copyItem {ps : List (Nat × Pcb)}
    (hr : Represents (Function.update listed result (some ps)) m elems s) (item : Nat) :
    ∃ m' elems', copyItem result item m = some m' ∧ elems' .processList = elems .processList ∧
      Represents (Function.update listed result (some (ps ++ [(m.heapTop, m.pcb item)]))) m' elems'
        s := by
  have hps := Function.update_self result (some ps) listed
  have hmem : Head.processList ∈ heads (Function.update listed result (some ps)) :=
    static_mem (by simp)
  have hshape := hr.shape.append (result_mem hps) (k := insertTail (.result result) m.heapTop { m with
    heapTop := m.heapTop + 92, pcb := Function.update m.pcb m.heapTop (m.pcb item) }) rfl
    (Nat.lt_add_of_pos_right (by decide))
  refine ⟨_, _, rfl, Function.update_of_ne (by simp) _ _, ⟨hshape.congr fun a => ?_, ?_, ?_⟩⟩
  · by_cases ha : a = result <;> simp [ha]
  · obtain ⟨prio, rfl⟩ := hr.state
    refine ⟨prio, ?_⟩
    simp [stateOf, insertTail, map_update_fresh (hr.shape.fresh hmem)]
  · intro a qs ha
    by_cases har : a = result
    · subst har
      have hold := (map_pairs_fresh (v := m.pcb item) (hr.shape.fresh (result_mem hps))).trans
        (hr.results a ps hps)
      rw [Function.update_self, Option.some.injEq] at ha
      rw [Function.update_self, List.map_append, ← ha]
      simp [insertTail, hold]
    · rw [Function.update_of_ne har] at ha
      have ha' : Function.update listed result (some ps) a = some qs := by
        rwa [Function.update_of_ne har]
      rw [Function.update_of_ne (by simpa using har)]
      exact (map_pairs_fresh (hr.shape.fresh (result_mem ha'))).trans (hr.results a qs ha')

theorem heads_update (listed : Nat → Option (List (Nat × Pcb))) (result : Nat)
    (ps : List (Nat × Pcb)) : heads (Function.update listed result (some ps)) =
      insert (.result result) (heads listed) := by
  ext h
  rw [Set.mem_insert_iff]
  cases h with
  | result a =>
    by_cases ha : a = result
    · simp [heads, ha]
    · simp [heads, ha]
  | _ => simp [heads]

/-- The new queue, before it has elements. -/
theorem Represents.initResult (hr : Represents listed m elems s) (hnone : listed m.heapTop = none) :
    Represents (Function.update listed m.heapTop (some []))
      (initQueue (.result m.heapTop) { m with heapTop := m.heapTop + 8 })
      (Function.update elems (.result m.heapTop) []) s := by
  have hnot : .result m.heapTop ∉ heads listed := by simp [heads, hnone]
  refine ⟨⟨?_, fun h hh a ha => ?_, fun a ha => ?_, Nat.add_pos_left hr.shape.top 8⟩, ?_, ?_⟩
  · rw [heads_update]
    exact hr.shape.family.init hnot
  · rw [heads_update] at hh
    obtain rfl | hh := hh
    · rw [Function.update_self] at ha
      cases ha
    · rw [Function.update_of_ne (ne_of_mem_of_not_mem hh hnot)] at ha
      exact Nat.lt_add_right 8 (hr.shape.below h hh a ha)
  · by_cases hat : a = m.heapTop
    · exact hat ▸ Nat.lt_add_of_pos_right (by decide)
    · rw [Function.update_of_ne hat] at ha
      exact Nat.lt_add_right 8 (hr.shape.resultBelow a ha)
  · obtain ⟨prio, rfl⟩ := hr.state
    exact ⟨prio, by simp [stateOf, initQueue]⟩
  · intro a ps ha
    by_cases hat : a = m.heapTop
    · rw [hat, Function.update_self] at ha ⊢
      exact Option.some.inj ha
    · rw [Function.update_of_ne hat] at ha
      rw [Function.update_of_ne (by simpa using hat)]
      exact hr.results a ps ha

theorem Represents.schedulerListProcs (hr : Represents listed m elems s) :
    listed m.heapTop = none ∧ ∃ m' elems' ps, schedulerListProcs m = some (m.heapTop, m') ∧
      ps.map Prod.snd = s.processList ∧
      Represents (Function.update listed m.heapTop (some ps)) m' elems' s := by
  have hnone : listed m.heapTop = none := by
    by_contra hsome
    exact absurd (hr.shape.resultBelow _ (Option.isSome_iff_ne_none.mpr hsome)) (lt_irrefl _)
  refine ⟨hnone, ?_⟩
  have hr₁ := hr.initResult hnone
  generalize hm₁ : initQueue (.result m.heapTop) { m with heapTop := m.heapTop + 8 } = m₁ at hr₁
  generalize Function.update elems (.result m.heapTop) [] = elems₁ at hr₁
  have hmem : Head.processList ∈ heads (Function.update listed m.heapTop (some [])) :=
    static_mem (by simp)
  have hrun : ∃ t, loop .processList (Linked.copyItem m.heapTop) m₁ = some t ∧
      ∃ elems' ps, elems' .processList = elems₁ .processList ∧
        ps.map Prod.snd = (elems₁ .processList).map m₁.pcb ∧
        Represents (Function.update listed m.heapTop (some ps)) t elems' s := by
    rw [loop, hr₁.shape.first hmem]
    refine forEach_rule (fun done rest t => ∃ elems' ps, elems' .processList = elems₁ .processList ∧
      ps.map Prod.snd = done.map m₁.pcb ∧
      Represents (Function.update listed m.heapTop (some ps)) t elems' s)
      (hr₁.shape.family.ne_null hmem) (hr₁.shape.length_le hmem) ⟨elems₁, [], rfl, rfl, hr₁⟩ ?_
    rintro done a rest t hd ⟨elems', ps, hp, hps, hr'⟩
    have hlist : (done ++ a :: rest).map t.pcb = (done ++ a :: rest).map m₁.pcb := by
      rw [hd, ← hr₁.processList_eq, ← hp, hr'.processList_eq]
    have ha : t.pcb a = m₁.pcb a := List.map_inj_left.mp hlist a (by simp)
    obtain ⟨t', elems₂, ht', hp₂, hr₂⟩ := hr'.copyItem a
    have hq := hr₂.shape.family.queue .processList (static_mem (by simp))
    rw [hp₂, hp, ← hd] at hq
    exact ⟨t', ht', hq.ref_next, elems₂, _, hp₂.trans hp, by simp [hps, ha], hr₂⟩
  obtain ⟨t, ht, elems', ps, -, hps, hr'⟩ := hrun
  rw [← hr₁.processList_eq] at hps
  refine ⟨t, elems', ps, ?_, hps, hr'⟩
  rw [Linked.schedulerListProcs]
  simp only [stdmemAllocate, hm₁, ht, Option.bind_eq_bind, Option.bind_some]
  rfl

end Copies

end Queues
end MalapropOS.Scheduler.Linked
