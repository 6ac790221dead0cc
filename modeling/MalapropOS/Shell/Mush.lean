import Mathlib.Data.List.Find
import MalapropOS.Lib.Interleaving
import MalapropOS.Scheduler.Exits
import MalapropOS.Shell.Command
import MalapropOS.Shell.Editor
import MalapropOS.Shell.Input
import MalapropOS.User.Files

/-! The loop of the shell. A line is typed, taken apart and looked up, and its program is launched,
while what was launched before may still run. The scheduler sees the calls of the shell and those of
the other processes in any order; reading a character is no call of it. -/
namespace MalapropOS.Shell
open Fat (CharPtr cstr stdstringCompare)
open Requests Words
open User (ascii)

inductive Program where
  | p0 | p1 | ls | cd | pwd | cat | mkdir | touch | write | rm | append | messenger | producer
  | pipeline | consumer | writemany | proc | kill
  deriving DecidableEq

def programs : List (CharPtr × Program) :=
  [(ascii "P0", .p0), (ascii "P1", .p1), (ascii "ls", .ls), (ascii "cd", .cd), (ascii "pwd", .pwd),
    (ascii "cat", .cat), (ascii "mkdir", .mkdir), (ascii "touch", .touch), (ascii "write", .write),
    (ascii "rm", .rm), (ascii "append", .append), (ascii "messenger", .messenger),
    (ascii "producer", .producer), (ascii "pipeline", .pipeline), (ascii "consumer", .consumer),
    (ascii "writemany", .writemany), (ascii "proc", .proc), (ascii "kill", .kill)]

/-- `none` is NULL. -/
def chooseProcess (name : CharPtr) : Option Program :=
  (programs.find? fun entry => stdstringCompare entry.1 name = 0).map Prod.snd

/-- A trap, who is running, and the arguments in r0 to r2. -/
structure Request where
  caller : Int
  trap : Scheduler.Trap
  r0 : UInt32
  r1 : UInt32
  r2 : UInt32

/-- The shell is process 1. The result of a call is in r0. -/
def call (svc : Scheduler.Svc) (r0 r1 r2 : UInt32) : Prog Request (fun _ => UInt32) UInt32 :=
  ask ⟨1, .svc svc, r0, r1, r2⟩

/-- The characters in `sh_stdin_buffer`, and those that are still to be read, in typing order. -/
structure Stdin where
  buffer : List UInt8
  keyboard : List UInt8

def Stdin.all (i : Stdin) : List UInt8 := i.buffer ++ i.keyboard

/-- The loop of `handle_input` when `n` characters have come: those that it takes. -/
def takeInput : Nat → Stdin → List UInt8 × Stdin
  | 0, i => ([], i)
  | _ + 1, ⟨buffer, []⟩ => ([], ⟨buffer, []⟩)
  | n + 1, ⟨buffer, c :: keyboard⟩ =>
    if c = eof then ([], ⟨buffer, keyboard⟩)
    else
      let (cs, i) := takeInput n ⟨buffer ++ [c], keyboard⟩
      (c :: cs, i)

/-- The calls of `handle_input` for these characters: one for each Ctrl+C. -/
def handleInput (uninitialised childPid : UInt32) :
    List UInt8 → Prog Request (fun _ => UInt32) Unit
  | [] => return ()
  | c :: cs =>
    if c = 3 then do
      let _ ← call (.kill uninitialised) childPid 9 0
      handleInput uninitialised childPid cs
    else handleInput uninitialised childPid cs

/-- The loop of `launch_process`; `polls` has the number of characters that have come at each round.
`none` when it still waits behind these. -/
def waitLoop (uninitialised storedPid : UInt32) :
    List Nat → Stdin → Prog Request (fun _ => UInt32) (Option Stdin)
  | [], _ => return none
  | n :: polls, i => do
    let result ← call .waitpid 1 storedPid 1
    if Scheduler.keepsWaiting result then
      handleInput uninitialised storedPid (takeInput n i).1
      let _ ← call .yield 0 0 0
      waitLoop uninitialised storedPid polls (takeInput n i).2
    else return some i

/-- Where the programs and the arguments are. -/
structure Image where
  entry : Program → UInt32
  place : List CharPtr → UInt32

/-- What a round of the shell finds: the block for the line, the registers at the fork, what is in
`result` of the kernel before a kill, and the characters that have come at each poll. -/
structure Round where
  block : Nat → UInt8
  sp : UInt32
  fp : UInt32
  uninitialised : UInt32
  polls : List Nat

/-- The child does not come back, nor does a wait that goes on. -/
def launchProcess (image : Image) (round : Round) (function : Program) (command : ShellCommand)
    (i : Stdin) : Prog Request (fun _ => UInt32) (Option (UInt32 × Stdin)) := do
  let forkPid ← call .fork round.sp round.fp 0
  if forkPid = 0 then
    let _ ← call .exec (image.entry function) (UInt32.ofNat command.argc) (image.place command.argv)
    return none
  else
    let _ ← call .setpriority forkPid 1 (UInt32.ofInt command.priority)
    let waited ← waitLoop round.uninitialised forkPid round.polls i
    return waited.map (forkPid, ·)

def launchProcessBg (image : Image) (round : Round) (function : Program) (command : ShellCommand)
    (i : Stdin) : Prog Request (fun _ => UInt32) (Option (UInt32 × Stdin)) := do
  let forkPid ← call .fork round.sp round.fp 0
  if forkPid = 0 then
    let _ ← call .exec (image.entry function) (UInt32.ofNat command.argc) (image.place command.argv)
    return none
  else
    let _ ← call .yield 0 0 0
    return some (forkPid, i)

def launch (image : Image) (round : Round) (function : Program) (command : ShellCommand)
    (i : Stdin) : Prog Request (fun _ => UInt32) (Option (UInt32 × Stdin)) :=
  if command.background then launchProcessBg image round function command i
  else launchProcess image round function command i

/-- `get_line` on the buffer and then the keyboard. -/
def getLineFrom (block lastLine : Nat → UInt8) (i : Stdin) : Option ((Nat → UInt8) × Stdin) :=
  (getLine block lastLine 101 i.all).map fun (line, rest) =>
    let used := i.all.length - rest.length
    (line, ⟨i.buffer.drop used, i.keyboard.drop (used - i.buffer.length)⟩)

structure Command where
  program : Program
  argv : List CharPtr
  background : Bool
  priority : Int
  deriving DecidableEq

structure Launch where
  command : Command
  child : UInt32

/-- The `while` loop of `mush`, as many rounds as there are; what it has launched. The NULs that the
parser writes into the line are not in it: the next line is written over it, or its first
character is. -/
def mush (image : Image) :
    List Round → (Nat → UInt8) → Stdin → Prog Request (fun _ => UInt32) (List Launch)
  | [], _, _ => return []
  | round :: rounds, lastLine, i =>
    match getLineFrom round.block lastLine i with
    | none => return []
    | some (line, i) =>
      match parseShellCommand ((List.range 101).map line) with
      | none => return []
      | some command =>
        match chooseProcess command.name with
        | none => mush image rounds line i
        | some function => do
          let launched ← launch image round function command i
          match launched with
          | none => return []
          | some (child, i) =>
            let launches ← mush image rounds line i
            let known : Command := ⟨function, command.argv, command.background, command.priority⟩
            return ⟨known, child⟩ :: launches

/-- How many of r0 to r2 the wrapper of a call loads. -/
def loaded : Scheduler.Trap → Nat
  | .svc .exit => 1
  | .svc .fork => 2
  | .svc (.kill _) => 2
  | .svc .waitpid => 3
  | .svc .setpriority => 3
  | .svc .exec => 3
  | _ => 0

structure Loads (q : Request) (ctx : Scheduler.Ctx) : Prop where
  r0 : 0 < loaded q.trap → ctx.gpr 0 = q.r0
  r1 : 1 < loaded q.trap → ctx.gpr 1 = q.r1
  r2 : 2 < loaded q.trap → ctx.gpr 2 = q.r2

/-- A trap of the running process, whatever is in its other registers. -/
def KernelStep (s : Scheduler.State) (q : Request) (r : UInt32) (t : Scheduler.State) : Prop :=
  s.currentPid = q.caller ∧ ∃ ctx ctx', Loads q ctx ∧
    Scheduler.handle q.trap s ctx = some (t, ctx') ∧ r = ctx'.gpr 0

/-- The requests so far, with their results. -/
abbrev History := List (Request × UInt32)

/-- The request ends the process. -/
def EndsBy (pid : Int) (q : Request) : Prop :=
  (q.trap = .svc .exit ∧ q.caller = pid) ∨ ∃ u, q.trap = .svc (.kill u) ∧
    Scheduler.signed q.r1 = Scheduler.sigkill ∧ Scheduler.signed q.r0 = pid

def Ended (child : UInt32) (v : History) : Prop := ∃ e ∈ v, EndsBy (Scheduler.signed child) e.1

/-- The history gets longer. A wait that does not block answers what is in it. -/
def HistoryStep (v : History) (q : Request) (r : UInt32) (w : History) : Prop :=
  w = v ++ [(q, r)] ∧ (q.trap = .svc .waitpid →
    Scheduler.signed q.r0 = Scheduler.processEventExited → Scheduler.isNohang q.r2 →
    Scheduler.keepsWaiting r = false → Ended q.r1 v)

/-- The shell makes the child in between. -/
def Forked (child : UInt32) (v w : History) : Prop :=
  ∃ v' q, v <+: v' ∧ q.caller = 1 ∧ q.trap = .svc .fork ∧ v' ++ [(q, child)] <+: w

/-- The launches between two points of the history. Each has its fork, and when the next one begins,
a child that does not run in the background has ended. -/
inductive InTurn : List Launch → History → History → Prop
  | done {v w : History} (h : v <+: w) : InTurn [] v w
  | launched {l : Launch} {ls : List Launch} {v w x : History} (fork : Forked l.child v w)
      (ended : l.command.background = false → Ended l.child w) (rest : InTurn ls w x) :
      InTurn (l :: ls) v x

/-- What the text of a line means. -/
def commandOf (text : List UInt8) : Option Command :=
  let ws := (words isSpace text).tail
  (programs.find? fun entry => entry.1 = (words isSpace text).headD []).map fun entry =>
    { program := entry.2
      argv := ((argWords ws).take 10).map (· ++ [0])
      background := controlWord ws = some [0x26] ∧ (argWords ws).length < 10
      priority := if controlWord ws = some [0x21] ∧ (argWords ws).length < 10 then 0 else 1 }

/-- The first line of an input, as the reference editor leaves it. -/
def firstLine (input : List UInt8) : List UInt8 :=
  if (keys input).2.1 = .entered then ((keys input).1.foldl press TwoList.empty).text else []

/-- The first `n` lines of an input. -/
def typedLines : Nat → List UInt8 → List (List UInt8)
  | 0, _ => []
  | n + 1, input =>
    if (keys input).2.1 = .typing then [] else firstLine input :: typedLines n (keys input).2.2

section Typing
variable {i : Stdin}

/-- What the wait loop takes from the keyboard goes into the buffer. -/
theorem takeInput_all (n : Nat) (h : eof ∉ i.all) : (takeInput n i).2.all = i.all := by
  induction n generalizing i with
  | zero => rfl
  | succ n ih =>
    obtain ⟨buffer, keyboard⟩ := i
    cases keyboard with
    | nil => rfl
    | cons c keyboard =>
      have hall : (⟨buffer ++ [c], keyboard⟩ : Stdin).all = buffer ++ c :: keyboard := by
        simp [Stdin.all]
      have hc : c ≠ eof := by
        rintro rfl
        exact h (by simp [Stdin.all])
      rw [takeInput, if_neg hc]
      exact (ih (hall ▸ h)).trans hall

theorem keys_suffix (input : List UInt8) : (keys input).2.2 <:+ input := by
  fun_induction keys input with
  | case1 => exact List.nil_suffix
  | case2 rest => exact List.suffix_cons _ _
  | case3 rest => exact List.suffix_cons _ _
  | case4 rest _ _ ih => exact ih.trans (List.suffix_cons _ _)
  | case5 next afterNext rest _ _ _ ih =>
    exact ih.trans ⟨[27, next, afterNext], rfl⟩
  | case6 => exact List.nil_suffix
  | case7 c rest _ _ _ _ ih => exact ih.trans (List.suffix_cons _ _)

/-- A line takes its characters from the buffer first. -/
theorem getLineFrom_reads {block : Nat → UInt8} (hblock : ∀ k ≤ 100, block k = 0)
    (lastLine : Nat → UInt8) (hz : 0 ∉ i.all) :
    ((keys i.all).2.1 = .typing → getLineFrom block lastLine i = none) ∧
    ((keys i.all).2.1 ≠ .typing → ∃ line i', getLineFrom block lastLine i = some (line, i') ∧
      Holds line (firstLine i.all) ∧ (firstLine i.all).length ≤ 100 ∧
      i'.all = (keys i.all).2.2) := by
  obtain ⟨hs, hend⟩ := (Shows.makeLine hblock).loop hz
  obtain ⟨htyping, hentered, hinterrupted⟩ := getLine_ends block lastLine 101 i.all
  rw [hend] at htyping hentered hinterrupted
  have hrest := List.suffix_iff_eq_drop.mp (keys_suffix i.all)
  have hleft : ∀ line, getLine block lastLine 101 i.all = some (line, (keys i.all).2.2) →
      ∃ i', getLineFrom block lastLine i = some (line, i') ∧ i'.all = (keys i.all).2.2 := by
    intro line hline
    rw [getLineFrom, hline]
    refine ⟨_, rfl, ?_⟩
    conv_rhs => rw [hrest, Stdin.all, List.drop_append]
    rfl
  refine ⟨fun ht => ?_, fun hn => ?_⟩
  · rw [getLineFrom, htyping ht]
    rfl
  · cases hlast : (keys i.all).2.1 with
    | typing => exact absurd hlast hn
    | entered =>
      obtain ⟨i', hi', hall⟩ := hleft _ (hentered hlast)
      rw [firstLine, if_pos hlast]
      exact ⟨_, i', hi', hs.copied lastLine le_rfl, hs.fits, hall⟩
    | interrupted =>
      obtain ⟨i', hi', hall⟩ := hleft _ (hinterrupted hlast)
      have hno : firstLine i.all = [] := if_neg (by simp [hlast])
      refine ⟨_, i', hi', ⟨by simp [hno], fun k hk => ?_⟩, by simp [hno], hall⟩
      obtain rfl : k = 0 := by simpa [hno] using hk
      simp [hno]

theorem cstr_of_holds {str : Nat → UInt8} {text : List UInt8} {n : Nat} (h : Holds str text)
    (hn : text.length < n) : cstr ((List.range n).map str) = text := by
  induction text generalizing str n with
  | nil =>
    obtain ⟨m, rfl⟩ := Nat.exists_eq_add_of_lt hn
    have hzero := h.2 0 le_rfl
    simp only [List.getD_nil] at hzero
    simp [List.range_succ_eq_map, cstr, hzero]
  | cons c text ih =>
    obtain ⟨hc, htext⟩ := not_or.mp (fun hm => h.1 (List.mem_cons.mpr hm))
    obtain ⟨m, rfl⟩ : ∃ m, n = m + 1 := ⟨n - 1, by omega⟩
    have hfirst : str 0 = c := h.2 0 (Nat.zero_le _)
    have hshift : Holds (str ∘ Nat.succ) text :=
      ⟨htext, fun k hk => h.2 (k + 1) (by simpa using hk)⟩
    rw [List.range_succ_eq_map, List.map_cons, List.map_map, hfirst,
      Fat.cstr_cons_of_ne (Ne.symm hc), ih hshift (by simpa using hn)]

end Typing

section Meaning

theorem chooseProcess_name {name : List UInt8} (hz : 0 ∉ name) :
    chooseProcess (name ++ [0]) = (programs.find? fun entry => entry.1 = name).map Prod.snd := by
  have hentries : ∀ entry ∈ programs, cstr entry.1 = entry.1 := by decide
  have hname : cstr (name ++ [0]) = name := by
    rw [cstr, List.takeWhile_append_of_pos (fun c hc => by
      simpa using fun h0 : c = 0 => hz (h0 ▸ hc))]
    simp
  refine congrArg (Option.map Prod.snd) (List.find?_congr fun entry hentry => ?_)
  refine decide_eq_decide.mpr ?_
  rw [Fat.stdstringCompare_eq_zero, hname, hentries entry hentry]

theorem command_of_line (line : CharPtr) : ∃ r, parseShellCommand line = some r ∧
    (chooseProcess r.name).map (fun p => ⟨p, r.argv, r.background, r.priority⟩) =
      commandOf (cstr line) := by
  have hparse := parseShellCommand_eq line
  have hargs := collect_args (wordsBehindName line)
    (r := startCommand ((words isSpace (cstr line)).headD [] ++ [0])) rfl
  have hflags := collect_flags (startCommand ((words isSpace (cstr line)).headD [] ++ [0]))
    (wordsBehindName line)
  generalize collect (wordsBehindName line) _ = r at hparse hargs hflags
  obtain ⟨hname, -, hargv⟩ := hargs
  obtain ⟨hbg, hpr⟩ := hflags
  simp only [startCommand, List.nil_append, Nat.sub_zero, Bool.false_or, Nat.zero_add]
    at hname hargv hbg hpr
  have hz : 0 ∉ (words isSpace (cstr line)).headD [] := by
    rw [headD_words]
    exact fun hm => Fat.cstr_no_nul line (firstWord_subset isSpace _ hm)
  refine ⟨r, hparse, ?_⟩
  rw [hname, chooseProcess_name hz, commandOf, Option.map_map, hargv, hbg, hpr]
  rfl

end Meaning

section Rounds
variable {v w : History} {child : UInt32}

theorem HistoryStep.grows {q : Request} {r : UInt32} (h : HistoryStep v q r w) : v <+: w :=
  h.1 ▸ List.prefix_append _ _

theorem ensures_grows {α : Type} (p : Prog Request (fun _ => UInt32) α) (v : History) :
    p.EnsuresUnder HistoryStep (· <+: ·) (fun _ w => v <+: w) v :=
  .of_steps (fun _ _ _ h h' => h.trans h') (fun _ _ _ _ h => h.grows) p v

theorem Ended.mono (h : Ended child v) (hvw : v <+: w) : Ended child w := by
  obtain ⟨e, he, hends⟩ := h
  exact ⟨e, hvw.subset he, hends⟩

theorem InTurn.extend {ls : List Launch} {x : History} (h : InTurn ls v w) (hwx : w <+: x) :
    InTurn ls v x := by
  induction h with
  | done hvw => exact .done (hvw.trans hwx)
  | launched fork ended rest ih => exact .launched fork ended (ih hwx)

/-- The wait loop ends behind the end of the child. -/
theorem waitLoop_ensures (uninitialised : UInt32) {i : Stdin} (hi : eof ∉ i.all)
    (polls : List Nat) :
    (waitLoop uninitialised child polls i).EnsuresUnder HistoryStep (· <+: ·)
      (fun a w => ∀ i', a = some i' → i'.all = i.all ∧ Ended child w) v := by
  induction polls generalizing i v with
  | nil => exact fun w _ i' h => by cases h
  | cons n polls ih =>
    have htaken := takeInput_all n hi
    refine ensuresUnder_ask.mpr fun x hx r w hw => ?_
    by_cases hk : Scheduler.keepsWaiting r
    · rw [if_pos hk]
      refine .bind List.prefix_refl (.of_forall _ _ fun _ y => ?_)
      refine ensuresUnder_ask.mpr fun z hz r' u hu => ?_
      exact (ih (htaken ▸ hi)).mono fun a w h i' ha =>
        ⟨(h i' ha).1.trans htaken, (h i' ha).2⟩
    · rw [if_neg hk]
      intro y hy i' ha
      obtain rfl := Option.some.inj ha
      have hended := hw.2 rfl rfl (by decide : Scheduler.isNohang 1) (by simpa using hk)
      exact ⟨rfl, hended.mono (hw.grows.trans hy)⟩

theorem launchProcess_ensures (image : Image) (round : Round) (function : Program)
    (command : ShellCommand) {i : Stdin} (hi : eof ∉ i.all) :
    (launchProcess image round function command i).EnsuresUnder HistoryStep (· <+: ·)
      (fun a w => ∀ child i', a = some (child, i') →
        i'.all = i.all ∧ Forked child v w ∧ Ended child w) v := by
  refine ensuresUnder_ask.mpr fun x hx r w hw => ?_
  by_cases hr : r = 0
  · rw [if_pos hr]
    exact fun y hy r' u hu z hz child i' h => by cases h
  · rw [if_neg hr]
    refine ensuresUnder_ask.mpr fun y hy r' u hu => ?_
    refine .bind List.prefix_refl ?_
    refine ((waitLoop_ensures round.uninitialised hi round.polls).and (ensures_grows _ u)).mono ?_
    rintro a z ⟨hwait, huz⟩ z' hz' child i' ha
    obtain ⟨i'', rfl, hpair⟩ := Option.map_eq_some_iff.mp ha
    obtain ⟨rfl, rfl⟩ := Prod.mk.inj hpair
    obtain ⟨hall, hended⟩ := hwait i'' rfl
    refine ⟨hall, ⟨x, ⟨1, .svc .fork, round.sp, round.fp, 0⟩, hx, rfl, rfl, ?_⟩, hended.mono hz'⟩
    exact hw.1 ▸ hy.trans (hu.grows.trans (huz.trans hz'))

theorem launchProcessBg_ensures (image : Image) (round : Round) (function : Program)
    (command : ShellCommand) (i : Stdin) :
    (launchProcessBg image round function command i).EnsuresUnder HistoryStep (· <+: ·)
      (fun a w => ∀ child i', a = some (child, i') → i'.all = i.all ∧ Forked child v w) v := by
  refine ensuresUnder_ask.mpr fun x hx r w hw => ?_
  by_cases hr : r = 0
  · rw [if_pos hr]
    exact fun y hy r' u hu z hz child i' h => by cases h
  · rw [if_neg hr]
    intro y hy r' u hu z hz child i' ha
    obtain ⟨rfl, rfl⟩ := Prod.mk.inj (Option.some.inj ha)
    exact ⟨rfl, x, _, hx, rfl, rfl, hw.1 ▸ hy.trans (hu.grows.trans hz)⟩

/-- A launch makes its child, waits for it where it is to, and leaves the input as it is. -/
theorem launch_ensures (image : Image) (round : Round) (function : Program)
    (command : ShellCommand) {i : Stdin} (hi : eof ∉ i.all) :
    (launch image round function command i).EnsuresUnder HistoryStep (· <+: ·)
      (fun a w => (∀ child i', a = some (child, i') → i'.all = i.all ∧ Forked child v w ∧
        (command.background = false → Ended child w)) ∧ v <+: w) v := by
  refine .and ?_ (ensures_grows _ v)
  rw [launch]
  cases hbg : command.background with
  | true =>
    refine (launchProcessBg_ensures image round function command i).mono ?_
    intro a w h child i' ha
    obtain ⟨hall, hforked⟩ := h child i' ha
    exact ⟨hall, hforked, nofun⟩
  | false =>
    refine (launchProcess_ensures image round function command hi).mono ?_
    intro a w h child i' ha
    obtain ⟨hall, hforked, hended⟩ := h child i' ha
    exact ⟨hall, hforked, fun _ => hended⟩

/-- One round launches what its line says, and the others go on from there. -/
theorem mush_ensures (image : Image) (rounds : List Round)
    (hblocks : ∀ round ∈ rounds, ∀ k ≤ 100, round.block k = 0) (lastLine : Nat → UInt8) {i : Stdin}
    (hz : 0 ∉ i.all) (hi : eof ∉ i.all) :
    (mush image rounds lastLine i).EnsuresUnder HistoryStep (· <+: ·)
      (fun ls w => ls.map Launch.command <+: (typedLines rounds.length i.all).filterMap commandOf ∧
        InTurn ls v w) v := by
  induction rounds generalizing lastLine i v with
  | nil => exact fun w hw => ⟨List.nil_prefix, .done hw⟩
  | cons round rounds ih =>
    obtain ⟨hblock, hblocks⟩ := List.forall_mem_cons.mp hblocks
    obtain ⟨hnone, hsome⟩ := getLineFrom_reads hblock lastLine hz
    by_cases ht : (keys i.all).2.1 = .typing
    · rw [mush, hnone ht]
      exact fun w hw => ⟨List.nil_prefix, .done hw⟩
    · obtain ⟨line, i', hline, hholds, hfits, hall⟩ := hsome ht
      obtain ⟨command, hparse, hcommand⟩ := command_of_line ((List.range 101).map line)
      have hsub : ∀ c, c ∉ i.all → c ∉ i'.all := fun c hc hm =>
        hc ((keys_suffix i.all).subset (hall ▸ hm))
      have hnext : ∀ v (j : Stdin), j.all = i'.all →
          (mush image rounds line j).EnsuresUnder HistoryStep (· <+: ·) (fun ls w =>
            ls.map Launch.command <+: (typedLines rounds.length i'.all).filterMap commandOf ∧
              InTurn ls v w) v := by
        intro v j hj
        rw [← hj]
        exact ih hblocks line (hj ▸ hsub 0 hz) (hj ▸ hsub eof hi)
      rw [cstr_of_holds hholds (Nat.lt_succ_of_le hfits)] at hcommand
      rw [List.length_cons, typedLines, if_neg ht, ← hall, mush, hline]
      simp only [hparse]
      cases hprogram : chooseProcess command.name with
      | none =>
        rw [hprogram, Option.map_none] at hcommand
        rw [List.filterMap_cons_none hcommand.symm]
        exact hnext v i' rfl
      | some function =>
        rw [hprogram, Option.map_some] at hcommand
        rw [List.filterMap_cons_some hcommand.symm]
        have hlaunch := launch_ensures (v := v) image round function command (hsub eof hi)
        refine .bind List.prefix_refl (hlaunch.mono ?_)
        rintro a w ⟨hlaunch, hvw⟩
        rcases a with - | ⟨child, i''⟩
        · exact fun x hx => ⟨List.nil_prefix, .done (hvw.trans hx)⟩
        · obtain ⟨hall', hforked, hended⟩ := hlaunch child i'' rfl
          refine .bind List.prefix_refl ((hnext w i'' hall').mono ?_)
          rintro ls x ⟨hls, hturn⟩ y hy
          exact ⟨(List.prefix_cons_inj _).mpr hls, .launched hforked hended (hturn.extend hy)⟩

end Rounds

section Kernel
variable {s t : Scheduler.State} {v w : History} {q : Request} {r : UInt32}

/-- The events of the scheduler are the ends in the history. -/
structure Recorded (s : Scheduler.State) (v : History) : Prop where
  queues : Scheduler.QueueInv s
  exits : ∀ p, Scheduler.ExitRecorded p s ↔ ∃ e ∈ v, EndsBy p e.1

theorem Loads.ends_iff {ctx : Scheduler.Ctx} (h : Loads q ctx) (hcaller : s.currentPid = q.caller)
    (p : Int) : Scheduler.Ends p s (q.trap, ctx) ↔ EndsBy p q := by
  rw [Scheduler.Ends, EndsBy, hcaller]
  refine or_congr_right (exists_congr fun u => and_congr_right fun htrap => ?_)
  have hloaded : loaded q.trap = 2 := congrArg loaded htrap
  rw [h.r0 (by omega), h.r1 (by omega)]

/-- Every step of the kernel makes the history one longer. -/
theorem Recorded.step (h : KernelStep s q r t) (hs : Recorded s v) :
    ∃ w, HistoryStep v q r w ∧ Recorded t w := by
  obtain ⟨hcaller, ctx, ctx', hloads, hhandle, rfl⟩ := h
  have hstep : Scheduler.step s (q.trap, ctx) = some t := by rw [Scheduler.step, hhandle]; rfl
  refine ⟨_, ⟨rfl, fun htrap hexit hnohang hanswer => ?_⟩, ?_, fun p => ?_⟩
  · obtain ⟨caller, trap, r0, r1, r2⟩ := q
    obtain rfl := htrap
    have h0 : ctx.gpr 0 = r0 := hloads.r0 (by decide : 0 < 3)
    have h1 : ctx.gpr 1 = r1 := hloads.r1 (by decide : 1 < 3)
    have h2 : ctx.gpr 2 = r2 := hloads.r2 (by decide : 2 < 3)
    subst h0 h1 h2
    rw [Scheduler.nohang_result hexit hnohang] at hhandle
    obtain ⟨rfl, rfl⟩ := Prod.mk.inj (Option.some.inj hhandle)
    by_contra hnone
    have hzero := (Scheduler.hasEventOccurred_exit _ s).2 ((hs.exits _).not.mpr hnone)
    rw [hzero] at hanswer
    cases hanswer
  · exact hs.queues.handled (Scheduler.handle_handled hhandle)
  · rw [Scheduler.step_exitRecorded hs.queues hstep, hs.exits, hloads.ends_iff hcaller]
    simp [or_and_right, exists_or]

theorem history_of_steps {es : List (Event fun _ : Request => UInt32)}
    (h : Steps HistoryStep es v w) : w = v ++ es.map fun e => (e.request, e.reply) := by
  induction h with
  | nil => simp
  | cons first rest ih => rw [ih, first.1, List.map_cons, List.append_assoc, List.singleton_append]

end Kernel

section Examples
open Scheduler (argCtx handle schedulerInitialise zeroPcb)

/-- The events from a state on, each with its own arguments in r0 to r2. -/
def replay : List (Event fun _ : Request => UInt32) → Scheduler.State → Option Scheduler.State
  | [], s => some s
  | e :: es, s => do
    let (t, ctx) ← handle e.request.trap s (argCtx e.request.r0 e.request.r1 e.request.r2)
    if s.currentPid = e.request.caller ∧ e.reply = ctx.gpr 0 then replay es t else none

theorem replay_steps {es : List (Event fun _ : Request => UInt32)} {s t : Scheduler.State}
    (h : replay es s = some t) : Steps KernelStep es s t := by
  induction es generalizing s with
  | nil =>
    obtain rfl := Option.some.inj h
    exact .nil
  | cons e es ih =>
    obtain ⟨⟨u, ctx⟩, hhandle, h⟩ := Option.bind_eq_some_iff.mp h
    obtain ⟨hcaller, hreply⟩ : s.currentPid = e.request.caller ∧ e.reply = ctx.gpr 0 := by
      by_contra hn
      simp [hn] at h
    simp only [hcaller, hreply, and_self, if_true] at h
    have hloads : Loads e.request (argCtx e.request.r0 e.request.r1 e.request.r2) :=
      ⟨fun _ => rfl, fun _ => rfl, fun _ => rfl⟩
    exact .cons ⟨hcaller, _, ctx, hloads, hhandle, hreply⟩ (ih h)

/-- The shell launches `ls` and waits for it; it yields twice until its child runs. -/
def listing : List (Event fun _ : Request => UInt32) :=
  [⟨true, ⟨1, .svc .fork, 0, 0, 0⟩, 2⟩, ⟨true, ⟨1, .svc .setpriority, 2, 1, 1⟩, 0⟩,
    ⟨true, ⟨1, .svc .waitpid, 1, 2, 1⟩, 0⟩, ⟨true, ⟨1, .svc .yield, 0, 0, 0⟩, 0⟩,
    ⟨true, ⟨1, .svc .waitpid, 1, 2, 1⟩, 0⟩, ⟨true, ⟨1, .svc .yield, 0, 0, 0⟩, 0⟩,
    ⟨false, ⟨2, .svc .exec, 0x100, 0, 0x200⟩, 0⟩, ⟨false, ⟨2, .svc .exit, 0, 0, 0⟩, 0⟩,
    ⟨true, ⟨1, .svc .waitpid, 1, 2, 1⟩, 2⟩]

/-- The line `ls`, and a character for the next one. -/
def typedListing : List UInt8 := [0x6c, 0x73, 0x0d, 0x78]

def someImage : Image := ⟨fun _ => 0x100, fun _ => 0x200⟩

/-- The character comes while `ls` runs. -/
def listingRound : Round := ⟨fun _ => 0, 0, 0, 0, [1, 0, 0]⟩

def listed : Launch := ⟨⟨.ls, [], false, 1⟩, 2⟩

theorem mush_makes_listing {rounds : List Round} (hrounds : rounds = [listingRound]) :
    (mush someImage rounds (fun _ => 0) ⟨[], typedListing⟩).Makes listing [listed] := by
  obtain ⟨line, i, hline, hholds, hfits, -⟩ := (getLineFrom_reads
    (i := ⟨[], typedListing⟩) (fun k _ => (rfl : listingRound.block k = 0)) (fun _ => 0)
    (by decide)).2 (by decide)
  have htext : firstLine (Stdin.all ⟨[], typedListing⟩) = [0x6c, 0x73] := by decide
  rw [htext] at hholds hfits
  have hi : (getLineFrom listingRound.block (fun _ => 0) ⟨[], typedListing⟩).map Prod.snd =
      some ⟨[], [0x78]⟩ := rfl
  rw [hline] at hi
  obtain rfl := Option.some.inj hi
  have hparse := parseShellCommand_eq ((List.range 101).map line)
  rw [wordsBehindName, cstr_of_holds hholds (Nat.lt_succ_of_le hfits)] at hparse
  have hcommand : collect (words isSpace [0x6c, 0x73]).tail
      (startCommand ((words isSpace [0x6c, 0x73]).headD [] ++ [0])) =
      startCommand [0x6c, 0x73, 0] := rfl
  have hprogram : chooseProcess (startCommand [0x6c, 0x73, 0]).name = some .ls := by decide
  rw [hcommand] at hparse
  rw [hrounds, mush, hline]
  simp only [hparse, hprogram]
  exact ⟨[], _, _, rfl, by simp, [], _, _, rfl, by simp, [], _, _, rfl, by simp, [], _, _, rfl,
    by simp, [], _, _, rfl, by simp, [], _, _, rfl, by simp, [_, _], _, _, rfl, by simp, by simp,
    rfl⟩

end Examples

end MalapropOS.Shell
