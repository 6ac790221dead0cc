import Mathlib.Data.List.Nodup
import MalapropOS.Fat.WellFormed

/-! The table of open files, which is searched by path in `sys_open` and `sys_unlink` and by
descriptor everywhere else. `TableStep` says what a call can do to it. -/
namespace MalapropOS.Fat

theorem stdstringCompare_eq_zero (a b : CharPtr) : stdstringCompare a b = 0 ↔ cstr a = cstr b := by
  induction a generalizing b with
  | nil =>
    cases b with
    | nil => simp [stdstringCompare, cstr]
    | cons y ys => by_cases hy : y = 0 <;> simp [stdstringCompare, cstr, hy]
  | cons x xs ih =>
    cases b with
    | nil => by_cases hx : x = 0 <;> simp [stdstringCompare, cstr, hx]
    | cons y ys =>
      have ih' := ih ys
      by_cases hx : x = 0
      · by_cases hy : y = 0 <;> simp [stdstringCompare, cstr, hx, hy]
      · by_cases hy : y = 0
        · simp [stdstringCompare, cstr, hx, hy]
        · by_cases hlt : x < y
          · have hne : x ≠ y := fun he => absurd hlt (by simp [he])
            simp [stdstringCompare, cstr, hx, hy, hlt, hne]
          · by_cases hgt : y < x
            · have hne : x ≠ y := fun he => absurd hgt (by simp [he])
              simp [stdstringCompare, cstr, hx, hy, hlt, hgt, hne]
            · have he : x = y := UInt8.le_antisymm (by simpa using hgt) (by simpa using hlt)
              simpa [stdstringCompare, cstr, hx, hy, he] using ih'

/-- The descriptor that a call is about: the one it returns for `sys_open`, and -1 for a call that
is about none. -/
def Call.subject (r : Int) : Call → Int
  | .openCall .. => r
  | .write fd .. => fd
  | .read fd .. => fd
  | .lseek fd .. => fd
  | .close fd => fd
  | .mkdir _ => -1
  | .unlink _ => -1

inductive TableStep (s t : State) : Call → Int → Prop where
  | kept {c : Call} {r : Int} (files : t.openFiles = s.openFiles) (next : t.nextFd = s.nextFd)
      (failed : ∀ p flags, c = .openCall p flags → r = -1) : TableStep s t c r
  | changed {c : Call} {r : Int} {f : OpenFile} {g : OpenFile → OpenFile}
      (subject : c.subject r = f.fd) (found : findOpenFileByFd s f.fd = some f)
      (fd : (g f).fd = f.fd) (path : (g f).path = f.path)
      (files : t.openFiles = updateOpenFile f.fd g s.openFiles)
      (next : t.nextFd = s.nextFd) : TableStep s t c r
  | closed {fd : Int} {f : OpenFile} (found : findOpenFileByFd s fd = some f)
      (files : t.openFiles = s.openFiles.eraseP (fun f => f.fd = fd))
      (next : t.nextFd = s.nextFd) : TableStep s t (.close fd) 0
  | opened {pathname : CharPtr} {flags : UInt32} {e : DirEntry} {append : Bool}
      (unknown : findOpenFile s pathname = none)
      (files : t.openFiles = s.openFiles ++ [⟨s.nextFd, e, pathname, 0, append⟩])
      (next : t.nextFd = s.nextFd + 1) : TableStep s t (.openCall pathname flags) s.nextFd

structure TableInv (s : State) : Prop where
  fds : (s.openFiles.map OpenFile.fd).Nodup
  range : ∀ f ∈ s.openFiles, 3 ≤ f.fd ∧ f.fd < s.nextFd
  paths : (s.openFiles.map fun f => cstr f.path).Nodup
  next : 3 ≤ s.nextFd

section Table
variable {s t : State}

theorem findOpenFileByFd_none {fd : Int} :
    findOpenFileByFd s fd = none ↔ ∀ f ∈ s.openFiles, f.fd ≠ fd := by
  simp [findOpenFileByFd]

theorem findOpenFile_none {pathname : CharPtr} :
    findOpenFile s pathname = none ↔ ∀ f ∈ s.openFiles, cstr f.path ≠ cstr pathname := by
  simp [findOpenFile, stdstringCompare_eq_zero]

theorem TableInv.found (hi : TableInv s) {f : OpenFile} (hf : f ∈ s.openFiles) :
    findOpenFileByFd s f.fd = some f := by
  cases h : findOpenFileByFd s f.fd with
  | none => exact absurd rfl (findOpenFileByFd_none.mp h f hf)
  | some g =>
    obtain ⟨hg, he⟩ := findOpenFileByFd_mem h
    rw [List.inj_on_of_nodup_map hi.fds hg hf he]

/-- A write through the pointer that was found replaces one record. -/
theorem updateOpenFile_found {files : List OpenFile} {fd : Int} {f : OpenFile}
    (h : files.find? (fun f => f.fd = fd) = some f) (g : OpenFile → OpenFile) :
    ∃ pre post, files = pre ++ f :: post ∧ updateOpenFile fd g files = pre ++ g f :: post := by
  induction files with
  | nil => cases h
  | cons a files ih =>
    by_cases ha : a.fd = fd
    · simp only [List.find?_cons, ha, decide_true, Option.some.injEq] at h
      subst h
      exact ⟨[], files, rfl, by simp [updateOpenFile, ha]⟩
    · simp only [List.find?_cons, ha, decide_false] at h
      obtain ⟨pre, post, he, hu⟩ := ih h
      exact ⟨a :: pre, post, by simp [he], by simp [updateOpenFile, ha, hu]⟩

theorem TableInv.mem_update (hi : TableInv s) {fd : Int} {f x : OpenFile} {g : OpenFile → OpenFile}
    (found : findOpenFileByFd s fd = some f) (hx : x ∈ updateOpenFile fd g s.openFiles) :
    x = g f ∨ x ∈ s.openFiles ∧ x.fd ≠ fd := by
  obtain ⟨pre, post, he, hu⟩ := updateOpenFile_found found g
  obtain ⟨-, rfl⟩ := findOpenFileByFd_mem found
  have hnd := List.Nodup.of_map _ hi.fds
  rw [he] at hnd
  have hmid := (List.nodup_middle.mp hnd |> List.nodup_cons.mp).1
  rw [hu] at hx
  have hcases : x = g f ∨ x ∈ pre ++ post := by
    simpa [or_left_comm, or_comm, or_assoc] using hx
  refine hcases.imp_right fun hm => ?_
  have hxs : x ∈ s.openFiles := by
    rw [he]
    simpa [or_left_comm] using Or.inr (List.mem_append.mp hm)
  refine ⟨hxs, fun hfd => ?_⟩
  have hxf := List.inj_on_of_nodup_map hi.fds hxs (by simp [he] : f ∈ s.openFiles) hfd
  exact hmid (hxf ▸ hm)

theorem TableInv.kept (hi : TableInv s) (hf : t.openFiles = s.openFiles)
    (hn : t.nextFd = s.nextFd) : TableInv t :=
  ⟨hf ▸ hi.fds, by rw [hf, hn]; exact hi.range, hf ▸ hi.paths, hn ▸ hi.next⟩

theorem TableInv.step {c : Call} {r : Int} (hi : TableInv s) (h : TableStep s t c r) :
    TableInv t := by
  cases h with
  | kept files next => exact hi.kept files next
  | @changed _ _ f g _ found fd path files next =>
    obtain ⟨pre, post, he, hu⟩ := updateOpenFile_found found g
    rw [hu] at files
    obtain ⟨h₁, h₂, h₃, h₄⟩ := hi
    rw [he] at h₁ h₂ h₃
    refine ⟨?_, fun x hx => ?_, ?_, next ▸ h₄⟩
    · simpa [files, fd] using h₁
    · rw [files] at hx
      rw [next]
      cases List.mem_append.mp hx with
      | inl hx => exact h₂ x (List.mem_append_left _ hx)
      | inr hx =>
        rcases List.mem_cons.mp hx with rfl | hx
        · exact fd ▸ h₂ f (by simp)
        · exact h₂ x (by simp [hx])
    · simpa [files, path] using h₃
  | closed _ files next =>
    have hsub : t.openFiles.Sublist s.openFiles := files ▸ List.eraseP_sublist
    exact ⟨hi.fds.sublist (hsub.map _), fun x hx => next ▸ hi.range x (hsub.subset hx),
      hi.paths.sublist (hsub.map _), next ▸ hi.next⟩
  | opened unknown files next =>
    have hn := hi.next
    refine ⟨?_, fun x hx => ?_, ?_, by omega⟩
    · rw [files, List.map_append, List.map_singleton, List.nodup_append]
      refine ⟨hi.fds, List.nodup_singleton _, ?_⟩
      intro a ha b hb hab
      obtain ⟨x, hx, rfl⟩ := List.mem_map.mp ha
      have := (hi.range x hx).2
      have := List.mem_singleton.mp hb
      dsimp only at this
      omega
    · rw [files] at hx
      cases List.mem_append.mp hx with
      | inl hx =>
        have := hi.range x hx
        omega
      | inr hx =>
        rw [List.mem_singleton.mp hx]
        dsimp only
        omega
    · rw [files, List.map_append, List.map_singleton, List.nodup_append]
      refine ⟨hi.paths, List.nodup_singleton _, ?_⟩
      intro a ha b hb hab
      obtain ⟨x, hx, rfl⟩ := List.mem_map.mp ha
      exact findOpenFile_none.mp unknown x hx (hab.trans (List.mem_singleton.mp hb))

/-- The records that a call is not about stay. -/
theorem TableStep.others {c : Call} {r : Int} (h : TableStep s t c r) {f : OpenFile}
    (hf : f.fd ≠ c.subject r) : f ∈ t.openFiles ↔ f ∈ s.openFiles := by
  cases h with
  | kept files => rw [files]
  | @changed _ _ f' g subject found fd _ files =>
    obtain ⟨pre, post, he, hu⟩ := updateOpenFile_found found g
    have h₁ : f ≠ f' := fun he => hf (he ▸ subject.symm)
    have h₂ : f ≠ g f' := fun he => hf (by rw [subject, ← fd, he])
    rw [files, hu, he]
    simp [h₁, h₂]
  | closed _ files => rw [files, List.mem_eraseP_of_neg (by simpa [Call.subject] using hf)]
  | opened _ files =>
    rw [files]
    have hne : ∀ e p b, f ≠ ⟨s.nextFd, e, p, 0, b⟩ := fun e p b he => hf (by rw [he]; rfl)
    simp [hne]

/-- The descriptors of the table afterwards: those of before, and perhaps the next one. -/
theorem TableStep.fd_cases {c : Call} {r : Int} (h : TableStep s t c r) {f : OpenFile}
    (hf : f ∈ t.openFiles) : f.fd = s.nextFd ∨ ∃ f₀ ∈ s.openFiles, f₀.fd = f.fd := by
  cases h with
  | kept files => exact Or.inr ⟨f, files ▸ hf, rfl⟩
  | @changed _ _ f' g _ found fd _ files =>
    obtain ⟨pre, post, he, hu⟩ := updateOpenFile_found found g
    rw [files, hu] at hf
    rw [he]
    cases List.mem_append.mp hf with
    | inl hf => exact Or.inr ⟨f, by simp [hf], rfl⟩
    | inr hf =>
      rcases List.mem_cons.mp hf with rfl | hf
      · exact Or.inr ⟨f', by simp, fd.symm⟩
      · exact Or.inr ⟨f, by simp [hf], rfl⟩
  | closed _ files => exact Or.inr ⟨f, List.mem_of_mem_eraseP (files ▸ hf), rfl⟩
  | opened _ files =>
    rw [files] at hf
    cases List.mem_append.mp hf with
    | inl hf => exact Or.inr ⟨f, hf, rfl⟩
    | inr hf =>
      rw [List.mem_singleton.mp hf]
      exact Or.inl rfl

end Table

section Calls
variable {fs : Fat16} {s t : State}

/-- The end of `sys_open` changes the record that was just made, the last of the table. -/
theorem finishOpen_new (hi : TableInv s) (e : DirEntry) (pathname : CharPtr) (flags : Nat) :
    let f : OpenFile := ⟨s.nextFd, e, pathname, 0, false⟩
    (finishOpen { s with openFiles := s.openFiles ++ [f], nextFd := s.nextFd + 1 } f flags) =
      (s.nextFd, { s with
        openFiles := s.openFiles ++ [{ f with append := flags &&& oAppend ≠ 0 }]
        nextFd := s.nextFd + 1 }) := by
  have hlt : ∀ f ∈ s.openFiles, f.fd ≠ s.nextFd := fun f hf => by
    have := (hi.range f hf).2
    omega
  have hu (g : OpenFile → OpenFile) (f : OpenFile) (hf : f.fd = s.nextFd) :
      updateOpenFile s.nextFd g (s.openFiles ++ [f]) = s.openFiles ++ [g f] := by
    revert hlt
    induction s.openFiles with
    | nil => simp [updateOpenFile, hf]
    | cons a files ih =>
      intro hlt
      simp [updateOpenFile, hlt a (by simp), ih fun x hx => hlt x (by simp [hx])]
  simp [finishOpen, hu]

theorem sysOpen_table (hi : TableInv s) {pathname : CharPtr} {flags : UInt32} {r : Int}
    (h : sysOpen fs s pathname flags.toNat = some (r, t)) :
    TableStep s t (.openCall pathname flags) r := by
  cases sysOpen_effect h with
  | known known => exact .changed rfl (hi.found (List.mem_of_find?_eq_some known)) rfl rfl rfl rfl
  | opened unknown found =>
    obtain ⟨e, rfl, rfl⟩ := openFile_some found
    rw [finishOpen_new hi]
    exact .opened unknown rfl rfl
  | missing => exact .kept rfl rfl fun _ _ _ => rfl
  | failed => exact .kept rfl rfl fun _ _ _ => rfl
  | @made result d f t unknown _ _ _ found =>
    obtain ⟨e, rfl, rfl⟩ := openFile_some found
    rw [finishOpen_new (hi.kept (t := { s with disk := d }) rfl rfl)]
    exact .opened unknown rfl rfl

theorem writeAtOffset_table {f : OpenFile} {buf : Buffer} {nbytes : Nat} {r : Int}
    (h : writeAtOffset fs s f buf nbytes = some (r, t)) :
    ∃ g : OpenFile, t.openFiles = updateOpenFile f.fd (fun _ => g) s.openFiles ∧
      t.nextFd = s.nextFd ∧ g.fd = f.fd ∧ g.path = f.path := by
  unfold writeAtOffset at h
  dsimp only at h
  split_ifs at h
  · obtain ⟨rfl, rfl⟩ := Prod.mk.inj (Option.some.inj h)
    exact ⟨f, rfl, rfl, rfl, rfl⟩
  · obtain ⟨⟨u, d⟩, -, h⟩ := Option.bind_eq_some_iff.mp h
    obtain ⟨rfl, rfl⟩ := Prod.mk.inj (Option.some.inj h)
    exact ⟨_, rfl, rfl, rfl, rfl⟩
  · obtain ⟨rfl, rfl⟩ := Prod.mk.inj (Option.some.inj h)
    exact ⟨_, rfl, rfl, rfl, rfl⟩

theorem sysWrite_table {fd : Int} {buf : Buffer} {nbytes : UInt32} {r : Int}
    (h : sysWrite fs s fd buf nbytes.toNat = some (r, t)) :
    TableStep s t (.write fd buf nbytes) r := by
  unfold sysWrite at h
  split_ifs at h
  · obtain ⟨rfl, rfl⟩ := Prod.mk.inj (Option.some.inj h)
    exact .kept rfl rfl nofun
  · cases hf : findOpenFileByFd s fd with
    | none =>
      rw [hf] at h
      obtain ⟨rfl, rfl⟩ := Prod.mk.inj (Option.some.inj h)
      exact .kept rfl rfl nofun
    | some f =>
      simp only [hf] at h
      obtain ⟨-, rfl⟩ := findOpenFileByFd_mem hf
      split_ifs at h
      · obtain ⟨rfl, rfl⟩ := Prod.mk.inj (Option.some.inj h)
        exact .kept rfl rfl nofun
      · obtain ⟨g, ht, hn, hg, hp⟩ := writeAtOffset_table h
        rw [settleOffset_fd] at ht hg
        rw [settleOffset_path] at hp
        exact .changed (g := fun _ => g) rfl hf hg hp ht hn

theorem OffsetEffect.table {fd : Int} {c : Call} {r : Int} (h : OffsetEffect s fd t)
    (hs : c.subject r = fd) (hc : ∀ p flags, c ≠ .openCall p flags) : TableStep s t c r := by
  cases h with
  | kept _ files next => exact .kept files next fun p flags he => absurd he (hc p flags)
  | moved found =>
    obtain ⟨-, rfl⟩ := findOpenFileByFd_mem found
    exact .changed hs found rfl rfl rfl rfl

theorem sysClose_table (fd : Int) :
    TableStep s (sysClose s fd).2 (.close fd) (sysClose s fd).1 := by
  unfold sysClose
  cases hf : findOpenFileByFd s fd with
  | none => exact .kept rfl rfl nofun
  | some f => exact .closed hf rfl rfl

theorem sysMkdir_table {path : CharPtr} {r : Int} (h : sysMkdir fs s path = some (r, t)) :
    TableStep s t (.mkdir path) r := by
  obtain rfl | ⟨-, -, -, d, -, rfl⟩ := sysMkdir_cases h
  · exact .kept rfl rfl nofun
  · exact .kept rfl rfl nofun

theorem sysUnlink_files {pathname : CharPtr} {r : Int}
    (h : sysUnlink fs s pathname = some (r, t)) :
    t.openFiles = s.openFiles ∧ t.nextFd = s.nextFd := by
  unfold sysUnlink at h
  cases hf : findOpenFile s pathname with
  | some f =>
    rw [hf] at h
    obtain ⟨rfl, rfl⟩ := Prod.mk.inj (Option.some.inj h)
    exact ⟨rfl, rfl⟩
  | none =>
    simp only [hf] at h
    split_ifs at h
    · obtain ⟨rfl, rfl⟩ := Prod.mk.inj (Option.some.inj h)
      exact ⟨rfl, rfl⟩
    · obtain ⟨found, -, h₁⟩ := Option.bind_eq_some_iff.mp h
      cases found with
      | none =>
        obtain ⟨rfl, rfl⟩ := Prod.mk.inj (Option.some.inj h₁)
        exact ⟨rfl, rfl⟩
      | some file =>
        obtain ⟨⟨result, d⟩, -, h₂⟩ := Option.bind_eq_some_iff.mp h₁
        obtain ⟨rfl, rfl⟩ := Prod.mk.inj (Option.some.inj h₂)
        exact ⟨rfl, rfl⟩

theorem sysUnlink_table {pathname : CharPtr} {r : Int}
    (h : sysUnlink fs s pathname = some (r, t)) : TableStep s t (.unlink pathname) r :=
  .kept (sysUnlink_files h).1 (sysUnlink_files h).2 nofun

theorem call_table (hi : TableInv s) {c : Call} {r : Int} (h : call fs s c = some (r, t)) :
    TableStep s t c r := by
  cases c with
  | openCall pathname flags => exact sysOpen_table hi h
  | mkdir path => exact sysMkdir_table h
  | write fd buf nbytes => exact sysWrite_table h
  | read fd buf nbytes =>
    obtain ⟨rfl, rfl⟩ := Prod.mk.inj (Option.some.inj h)
    exact (sysRead_effect fs s fd buf nbytes.toNat).table rfl nofun
  | lseek fd offset whence =>
    obtain ⟨rfl, rfl⟩ := Prod.ext_iff.mp (Option.some.inj h)
    exact (sysLseek_effect s fd offset whence).table rfl nofun
  | close fd =>
    obtain ⟨rfl, rfl⟩ := Prod.ext_iff.mp (Option.some.inj h)
    exact sysClose_table fd
  | unlink pathname => exact sysUnlink_table h

/-- No file is open under the descriptor, and it will not be given out again. -/
structure Retired (fd : Int) (s : State) : Prop where
  given : 3 ≤ fd ∧ fd < s.nextFd
  gone : ∀ f ∈ s.openFiles, f.fd ≠ fd

theorem Retired.step {fd : Int} {c : Call} {r : Int} (h : Retired fd s) (ht : TableStep s t c r) :
    Retired fd t := by
  have hn : s.nextFd ≤ t.nextFd := by
    cases ht with
    | kept _ next => omega
    | changed _ _ _ _ _ next => omega
    | closed _ _ next => omega
    | opened _ _ next => omega
  refine ⟨⟨h.given.1, Int.lt_of_lt_of_le h.given.2 hn⟩, fun f hf he => ?_⟩
  rcases ht.fd_cases hf with hnew | ⟨f₀, hf₀, he₀⟩
  · have := h.given.2
    omega
  · exact h.gone f₀ hf₀ (he₀.trans he)

/-- What the calls answer about a descriptor under which no file is open. -/
structure Refused (fs : Fat16) (s : State) (fd : Int) : Prop where
  read : ∀ buf nbytes, (sysRead fs s fd buf nbytes).1 = -1
  write : ∀ buf nbytes, sysWrite fs s fd buf nbytes = some (-1, s)
  lseek : ∀ offset whence, (sysLseek s fd offset whence).1 = -1
  fstat : ∀ buf, (sysFstat s fd buf).1 = -1
  close : (sysClose s fd).1 = -1

theorem Retired.refused {fd : Int} (h : Retired fd s) : Refused fs s fd := by
  have hf := findOpenFileByFd_none.mpr h.gone
  have hg := h.given.1
  have h₀ : fd ≠ stdinFiledesc := by unfold stdinFiledesc; omega
  have h₁ : fd ≠ stdoutFiledesc := by unfold stdoutFiledesc; omega
  constructor
  · simp [sysRead, h₀, hf]
  · simp [sysWrite, h₁, hf]
  · simp [sysLseek, hf]
  · simp [sysFstat, hf]
  · simp [sysClose, hf]

theorem sysClose_retires (hi : TableInv s) {fd : Int} (h : (sysClose s fd).1 = 0) :
    Retired fd (sysClose s fd).2 := by
  cases hf : findOpenFileByFd s fd with
  | none => simp [sysClose, hf] at h
  | some f =>
    obtain ⟨hm, rfl⟩ := findOpenFileByFd_mem hf
    obtain ⟨h₃, hn⟩ := hi.range f hm
    have he : (sysClose s f.fd).2 =
        { s with openFiles := s.openFiles.eraseP (fun x => x.fd = f.fd) } := by
      simp [sysClose, hf]
    rw [he]
    refine ⟨⟨h₃, hn⟩, fun x hx hxf => ?_⟩
    obtain ⟨a, pre, post, -, ha, hs, hp⟩ := List.exists_of_eraseP (p := fun x => x.fd = f.fd)
      hm (decide_eq_true rfl)
    dsimp only at hx
    have hxm := List.mem_of_mem_eraseP hx
    have ham : a ∈ s.openFiles := by simp [hs]
    -- the record that is left has the descriptor of the one erased, so they are one
    have hxa : x = a :=
      List.inj_on_of_nodup_map hi.fds hxm ham (hxf.trans (of_decide_eq_true ha).symm)
    have hnd := List.Nodup.of_map _ hi.fds
    rw [hs] at hnd
    rw [hp, hxa] at hx
    exact (List.nodup_middle.mp hnd |> List.nodup_cons.mp).1 hx

theorem fileInitialise_table (d : Disk) : TableInv (fileInitialise d) :=
  ⟨List.nodup_nil, fun _ hf => absurd hf List.not_mem_nil, List.nodup_nil, Int.le_refl 3⟩

theorem step_table (hi : TableInv s) {c : Call} (h : step fs s c = some t) :
    ∃ r, TableStep s t c r := by
  obtain ⟨⟨r, u⟩, hc, rfl⟩ := Option.map_eq_some_iff.mp h
  exact ⟨r, call_table hi hc⟩

theorem run_table (hi : TableInv s) {cs : List Call}
    (h : PartialMachine.run (step fs) cs s = some t) : TableInv t :=
  PartialMachine.run_invariant TableInv
    (fun _ _ _ hu hv => (step_table hu hv).elim fun _ ht => hu.step ht) hi h

theorem run_retired {fd : Int} (hi : TableInv s) (hr : Retired fd s) {cs : List Call}
    (h : PartialMachine.run (step fs) cs s = some t) : Retired fd t :=
  (PartialMachine.run_invariant (fun u => TableInv u ∧ Retired fd u)
    (fun _ _ _ hu hv => (step_table hu.1 hv).elim fun _ ht => ⟨hu.1.step ht, hu.2.step ht⟩)
    ⟨hi, hr⟩ h).2

end Calls

/-- What holds of the table of open files after the calls of a run. -/
structure TableLaws (fs : Fat16) (d : Disk) (cs : List Call) (s : State) : Prop where
  fdsDistinct : (s.openFiles.map OpenFile.fd).Nodup
  fdsInRange : ∀ f ∈ s.openFiles, 3 ≤ f.fd ∧ f.fd ≤ s.nextFd - 1
  pathsDistinct : (s.openFiles.map fun f => cstr f.path).Nodup
  closedStays : ∀ cs₁ fd cs₂ t, cs = cs₁ ++ .close fd :: cs₂ →
    PartialMachine.run (step fs) cs₁ (fileInitialise d) = some t → (sysClose t fd).1 = 0 →
    Refused fs s fd
  failedOpen : ∀ pathname flags t, call fs s (.openCall pathname flags) = some (-1, t) →
    t.nextFd = s.nextFd ∧ t.openFiles = s.openFiles
  others : ∀ c r t, call fs s c = some (r, t) → ∀ f, f.fd ≠ c.subject r →
    (f ∈ t.openFiles ↔ f ∈ s.openFiles)

theorem open_files_consistent (fs : Fat16) (d : Disk) (cs : List Call) (s : State)
    (h : PartialMachine.run (step fs) cs (fileInitialise d) = some s) : TableLaws fs d cs s := by
  have hi := run_table (fileInitialise_table d) h
  refine ⟨hi.fds, fun f hf => ?_, hi.paths, ?_, fun pathname flags t hc => ?_,
    fun c r t hc f hf => (call_table hi hc).others hf⟩
  · have := hi.range f hf
    omega
  · rintro cs₁ fd cs₂ t rfl ht hclose
    obtain ⟨u, hu, hrest⟩ := PartialMachine.run_append h
    obtain rfl : t = u := Option.some.inj (ht.symm.trans hu)
    obtain ⟨v, hv, hend⟩ := PartialMachine.run_cons hrest
    have hiu := run_table (fileInitialise_table d) hu
    obtain rfl : (sysClose t fd).2 = v := Option.some.inj hv
    exact (run_retired (hiu.step (sysClose_table fd)) (sysClose_retires hiu hclose) hend).refused
  · have ht := call_table hi hc
    have hnext := hi.next
    generalize hr : (-1 : Int) = r at ht
    cases ht with
    | kept files next => exact ⟨next, files⟩
    | changed subject found =>
      have := (hi.range _ (findOpenFileByFd_mem found).1).1
      simp only [Call.subject] at subject
      omega
    | opened => omega

/-- The root directory is opened twice under one path, closed and opened again; a file that does
not exist cannot be opened. -/
def openAndClose : List Call :=
  [.openCall [slash] 0, .openCall [slash, 0] 2, .openCall rootPath 0, .close 3, .openCall [slash] 0]

theorem openAndClose_consistent : ∃ s,
    PartialMachine.run (step smallVolume) openAndClose (fileInitialise emptyDisk) = some s ∧
      s.openFiles.map OpenFile.fd = [4] ∧ s.nextFd = 5 ∧ Refused smallVolume s 3 := by
  have hr : (PartialMachine.run (step smallVolume) openAndClose (fileInitialise emptyDisk)).map
      (fun s => (s.openFiles.map OpenFile.fd, s.nextFd)) = some ([4], 5) := by decide +kernel
  have hc : ((PartialMachine.run (step smallVolume) (openAndClose.take 3)
      (fileInitialise emptyDisk)).map fun t => (sysClose t 3).1) = some 0 := by decide +kernel
  obtain ⟨s, hs, hd⟩ := Option.map_eq_some_iff.mp hr
  obtain ⟨t, ht, hclose⟩ := Option.map_eq_some_iff.mp hc
  obtain ⟨hfds, hnext⟩ := Prod.mk.inj hd
  exact ⟨s, hs, hfds, hnext, (open_files_consistent smallVolume emptyDisk openAndClose s
    hs).closedStays (openAndClose.take 3) 3 (openAndClose.drop 4) t rfl ht hclose⟩

end MalapropOS.Fat
