import Mathlib.Data.List.Rotate
import MalapropOS.Scheduler.Queues

/-! Runs of `scheduler_run` calls alone: the queue that is served turns round. -/
namespace MalapropOS.Scheduler

/-- Calls of `scheduler_run`, one after the other, each with the registers at its trap. -/
abbrev turn := PartialMachine.run fun s ctx => (schedulerRun s ctx).map Prod.fst

/-- The pids that the calls make current. -/
def turns : List Ctx → State → Option (List Int)
  | [], _ => some []
  | ctx :: ctxs, s => (schedulerRun s ctx).bind fun r =>
    (turns ctxs r.1).map (r.1.currentPid :: ·)

/-- The queue that is served. -/
def served (s : State) : List Int := if s.highQueue = [] then s.lowQueue else s.highQueue

/-- The other queue. -/
def waiting (s : State) : List Int := if s.highQueue = [] then [] else s.lowQueue

/-- Every queued pid and the current one have an entry, and -1, which stands for an empty
queue, is not in the high queue. -/
structure Servable (s : State) : Prop where
  queued : ∀ x, x ∈ s.highQueue ∨ x ∈ s.lowQueue → ∃ p ∈ s.processList, p.pid = x
  current : ∃ p ∈ s.processList, p.pid = s.currentPid
  proper : -1 ∉ s.highQueue

theorem mem_served_or_waiting {s : State} {x : Int} :
    x ∈ s.highQueue ∨ x ∈ s.lowQueue ↔ x ∈ served s ∨ x ∈ waiting s := by
  unfold served waiting
  by_cases he : s.highQueue = [] <;> simp [he]

theorem chooseNext_served {s : State} {x : Int} {xs : List Int} (hs : Servable s)
    (h : served s = x :: xs) : (chooseNext s).1 = x ∧
      (s.highQueue = [] → (chooseNext s).2.highQueue = [] ∧
        (chooseNext s).2.lowQueue = xs ++ [x]) ∧
      (s.highQueue ≠ [] → (chooseNext s).2.highQueue = xs ++ [x] ∧
        (chooseNext s).2.lowQueue = s.lowQueue) := by
  unfold served at h
  unfold chooseNext
  by_cases he : s.highQueue = []
  · rw [if_pos he] at h
    simp [getNextProcess, he, h]
  · rw [if_neg he] at h
    have hx : x ≠ -1 := by
      rintro rfl
      exact hs.proper (by simp [h])
    simp [getNextProcess, h, hx]

/-- One call: the head of the queue is current and goes to its end. -/
theorem schedulerRun_turns {s : State} {x : Int} {xs : List Int} (hs : Servable s)
    (h : served s = x :: xs) (ctx : Ctx) :
    ∃ s' ctx', schedulerRun s ctx = some (s', ctx') ∧ Servable s' ∧ s'.currentPid = x ∧
      (s'.highQueue = [] ↔ s.highQueue = []) ∧ served s' = xs ++ [x] ∧ waiting s' = waiting s := by
  obtain ⟨hx, hlow, hhigh⟩ := chooseNext_served hs h
  have hmem : ∃ p ∈ s.processList, p.pid = x :=
    hs.queued x (mem_served_or_waiting.mpr (Or.inl (by simp [h])))
  obtain ⟨ctx', hr⟩ := schedulerRun_ok hs.current (hx ▸ hmem) ctx
  have hpids (y : Int) : (∃ p ∈ updateProcess s.currentPid (fun p => { p with ctx := ctx })
      s.processList, p.pid = y) ↔ ∃ p ∈ s.processList, p.pid = y :=
    mem_pids_updateProcess (fun p => { p with ctx := ctx }) (fun _ => rfl) y
  refine ⟨_, ctx', hr, ?_⟩
  by_cases he : s.highQueue = []
  · obtain ⟨h₁, h₂⟩ := hlow he
    have hl : s.lowQueue = x :: xs := by rw [← h, served, if_pos he]
    refine ⟨⟨fun y hy => (hpids y).mpr (hs.queued y ?_), (hpids _).mpr (hx ▸ hmem), ?_⟩, hx,
      ?_, ?_, ?_⟩
    · rw [h₁, h₂] at hy
      rw [he, hl]
      simpa [or_comm] using hy
    · simp [h₁]
    · simp [h₁, he]
    · simp [served, h₁, h₂]
    · simp [waiting, h₁, he]
  · obtain ⟨h₁, h₂⟩ := hhigh he
    have hh : s.highQueue = x :: xs := by rw [← h, served, if_neg he]
    refine ⟨⟨fun y hy => (hpids y).mpr (hs.queued y ?_), (hpids _).mpr (hx ▸ hmem), ?_⟩, hx,
      ?_, ?_, ?_⟩
    · rw [h₁, h₂] at hy
      rw [hh]
      simpa [or_assoc, or_comm, or_left_comm] using hy
    · have hp := hs.proper
      rw [hh] at hp
      rw [h₁]
      simpa [or_comm] using hp
    · simp [h₁, he]
    · simp [served, h₁]
    · simp [waiting, h₁, h₂, he]

theorem getD_rotate {q : List Int} (hq : q ≠ []) (n j : Nat) :
    (q.rotate n).getD (j % q.length) (-1) = q.getD ((j + n) % q.length) (-1) := by
  have hlt : j % q.length < q.length := Nat.mod_lt _ (List.length_pos_of_ne_nil hq)
  rw [List.getD_eq_getElem?_getD, List.getD_eq_getElem?_getD, List.getElem?_rotate hlt,
    Nat.mod_add_mod]

/-- Any number of calls: the pids that get current, and the queues afterwards. -/
theorem turn_rotates {s : State} (hs : Servable s) (hne : served s ≠ []) (ctxs : List Ctx) :
    ∃ t, turn ctxs s = some t ∧
      turns ctxs s = some ((List.range ctxs.length).map fun j =>
        (served s).getD (j % (served s).length) (-1)) ∧
      (t.highQueue = [] ↔ s.highQueue = []) ∧ served t = (served s).rotate ctxs.length ∧
      waiting t = waiting s := by
  induction ctxs generalizing s with
  | nil => exact ⟨s, rfl, rfl, Iff.rfl, by simp, rfl⟩
  | cons ctx ctxs ih =>
    obtain ⟨x, xs, hq⟩ := List.exists_cons_of_ne_nil hne
    obtain ⟨s', ctx', hr, hs', hcur, he, hsv, hw⟩ := schedulerRun_turns hs hq ctx
    obtain ⟨t, ht, hp, he', hsv', hw'⟩ := ih hs' (by simp [hsv])
    have hrot : served s' = (served s).rotate 1 := by simp [hsv, hq]
    refine ⟨t, ?_, ?_, he'.trans he, ?_, hw'.trans hw⟩
    · rw [turn, PartialMachine.run, hr]
      exact ht
    · rw [List.length_cons, List.range_succ_eq_map, List.map_cons, List.map_map, turns, hr,
        Option.bind_some, hp, hcur, hrot, List.length_rotate]
      simp only [Option.map_some, Option.some.injEq, List.cons.injEq]
      refine ⟨by simp [hq], List.map_congr_left fun j _ => ?_⟩
      exact getD_rotate hne 1 j
    · rw [hsv', hrot, List.rotate_rotate, List.length_cons, Nat.add_comm]

/-- In a run of `scheduler_run` calls the i-th makes current the pid q[(i - 1) mod k] of the
queue that is served, which then is rotated by i; the other queue is untouched. Any k calls in a
row run the pids of the queue, each once for each time it occurs there. -/
theorem turns_round_robin (s : State)
    (hq : ∀ x, x ∈ s.highQueue ∨ x ∈ s.lowQueue → ∃ p ∈ s.processList, p.pid = x)
    (hne : s.highQueue ≠ [] ∨ s.lowQueue ≠ [])
    (hc : ∃ p ∈ s.processList, p.pid = s.currentPid) (hm : -1 ∉ s.highQueue)
    (ctxs : List Ctx) :
    ∃ t pids, turn ctxs s = some t ∧ turns ctxs s = some pids ∧
      (∀ i, 1 ≤ i → i ≤ ctxs.length →
        pids[i - 1]? = (served s)[(i - 1) % (served s).length]?) ∧
      (s.highQueue ≠ [] → t.highQueue = s.highQueue.rotate ctxs.length ∧
        t.lowQueue = s.lowQueue) ∧
      (s.highQueue = [] → t.lowQueue = s.lowQueue.rotate ctxs.length ∧ t.highQueue = []) ∧
      ∀ m, m + (served s).length ≤ ctxs.length →
        ((pids.drop m).take (served s).length).Perm (served s) := by
  have hs : Servable s := ⟨hq, hc, hm⟩
  have hne' : served s ≠ [] := by
    unfold served
    by_cases he : s.highQueue = [] <;> simp_all
  have hpos : 0 < (served s).length := List.length_pos_of_ne_nil hne'
  obtain ⟨t, ht, hp, he, hsv, hw⟩ := turn_rotates hs hne' ctxs
  have hget (n j : Nat) : (served s)[(j + n) % (served s).length]? =
      some ((served s).getD ((j + n) % (served s).length) (-1)) := by
    have hlt : (j + n) % (served s).length < (served s).length := Nat.mod_lt _ hpos
    rw [List.getD_eq_getElem?_getD, List.getElem?_eq_getElem hlt, Option.getD_some]
  refine ⟨t, _, ht, hp, fun i h₁ hi => ?_, fun h => ?_, fun h => ?_, fun m hmk => ?_⟩
  · rw [List.getElem?_map, List.getElem?_range (by omega), Option.map_some]
    exact (hget 0 (i - 1)).symm
  · have ht' := mt he.mp h
    simp only [served, waiting, if_neg h, if_neg ht'] at hsv hw
    exact ⟨hsv, hw⟩
  · have ht' := he.mpr h
    simp only [served, if_pos h, if_pos ht'] at hsv
    exact ⟨hsv, ht'⟩
  · -- the block of pids is the queue, rotated
    have hblock : (((List.range ctxs.length).map fun j =>
        (served s).getD (j % (served s).length) (-1)).drop m).take (served s).length =
        (served s).rotate m := by
      refine List.ext_getElem? fun j => ?_
      by_cases hj : j < (served s).length
      · rw [List.getElem?_take, if_pos hj, List.getElem?_drop, List.getElem?_map,
          List.getElem?_range (by omega), Option.map_some, List.getElem?_rotate hj, hget,
          Nat.add_comm m j]
      · rw [List.getElem?_take, if_neg hj, List.getElem?_eq_none (by simpa using hj)]
    rw [hblock]
    exact List.rotate_perm _ _

/-- Three processes in the low queue, the first of which runs. -/
def threeReady : State :=
  { schedulerInitialise 0 0 zeroPcb with
    nextPid := 4
    processList := [{ zeroPcb with pid := 1 }, { zeroPcb with pid := 2 }, { zeroPcb with pid := 3 }]
    lowQueue := [2, 3, 1] }

theorem threeReady_round_robin : ∃ t pids,
    turn (List.replicate 7 zeroCtx) threeReady = some t ∧
    turns (List.replicate 7 zeroCtx) threeReady = some pids ∧
    t.lowQueue = [3, 1, 2] ∧ ((pids.drop 2).take 3).Perm [2, 3, 1] := by
  obtain ⟨t, pids, ht, hp, -, -, hl, hperm⟩ := turns_round_robin threeReady
    (by simp [threeReady, schedulerInitialise]) (Or.inr (by decide))
    (by simp [threeReady, schedulerInitialise]) (by decide) (List.replicate 7 zeroCtx)
  exact ⟨t, pids, ht, hp, (hl rfl).1, hperm 2 (by decide)⟩

/-- The state of `threeReady` before a first process is current. -/
def noneCurrent : State := { threeReady with currentPid := 0 }

/-- A process whose pid is -1, in the high queue. -/
def minusOneQueued : State :=
  { threeReady with
    processList := { zeroPcb with pid := -1 } :: threeReady.processList
    highQueue := [-1] }

/-- A call stores the registers of the current process, which must have an entry; and -1 at the
head of the high queue is taken for an empty queue. -/
theorem turns_need_entries :
    ((∀ x, x ∈ noneCurrent.highQueue ∨ x ∈ noneCurrent.lowQueue →
        ∃ p ∈ noneCurrent.processList, p.pid = x) ∧ noneCurrent.lowQueue ≠ [] ∧
      turn [zeroCtx] noneCurrent = none) ∧
    (∀ x, x ∈ minusOneQueued.highQueue ∨ x ∈ minusOneQueued.lowQueue →
        ∃ p ∈ minusOneQueued.processList, p.pid = x) ∧ served minusOneQueued = [-1] ∧
      turns [zeroCtx] minusOneQueued = some [2] := by
  refine ⟨⟨?_, by decide, ?_⟩, ?_, by decide, by decide⟩
  · simp [noneCurrent, threeReady, schedulerInitialise]
  · exact Option.isNone_iff_eq_none.mp (by decide)
  · simp [minusOneQueued, threeReady, schedulerInitialise]

end MalapropOS.Scheduler
