import MalapropOS.Fat.SplitName
import MalapropOS.Lib.Words

/-! `parse_shell_command` takes the line apart with `stdstring_next_token`, which ends a token by
writing a NUL into the line and goes on behind it. A `char*` into the line is an index of it; the
bytes behind the list are zero, and `stdmem_allocate` is taken to succeed. -/
namespace MalapropOS.Shell
open Fat (CharPtr cstr stdstringCompare)
open Words

/-- `token_t`; `none` is NULL. -/
structure Token where
  tokenStart : Nat
  afterToken : Option Nat

/-- `shell_command_t`. The entries of `argv` that are set. -/
structure ShellCommand where
  name : CharPtr
  argc : Nat
  priority : Int
  background : Bool
  argv : List CharPtr

def stdstrContainsChar (c : UInt8) : CharPtr → Bool
  | [] => false
  | x :: xs => if x = 0 then false else if c = x then true else stdstrContainsChar c xs

/-- The token, and the line with the terminator that it writes. -/
def stdstringNextToken (line : CharPtr) (str : Nat) (delimeters : CharPtr) : Token × CharPtr :=
  let start := str + ((line.drop str).takeWhile fun c =>
    c ≠ 0 && stdstrContainsChar c delimeters).length
  let stop := start + ((line.drop start).takeWhile fun c =>
    c ≠ 0 && !stdstrContainsChar c delimeters).length
  if CharPtr.at line stop ≠ 0 then (⟨start, some (stop + 1)⟩, line.set stop 0)
  else (⟨start, none⟩, line)

/-- A copy of the string at `&line[ p ]`, its NUL included. -/
def copyString (line : CharPtr) (p : Nat) : CharPtr :=
  (List.range ((cstr (line.drop p)).length + 1)).map fun i => CharPtr.at line (p + i)

/-- The `while` loop; `none` when it has not ended after that many rounds. -/
def parseArgs : Nat → CharPtr → Token → ShellCommand → Option ShellCommand
  | 0, _, _, _ => none
  | fuel + 1, line, token, result =>
    match token.afterToken with
    | none => some result
    | some after =>
      if result.argc < 10 then
        let next := stdstringNextToken line after [0x20]
        let str := next.2.drop next.1.tokenStart
        if stdstringCompare str [0x26] = 0 then some { result with background := true }
        else if stdstringCompare str [0x21] = 0 then some { result with priority := 0 }
        else if (cstr str).length > 0 then
          parseArgs fuel next.2 next.1 { result with
            argv := result.argv ++ [copyString next.2 next.1.tokenStart]
            argc := result.argc + 1 }
        else parseArgs fuel next.2 next.1 result
      else some result

/-- What `parse_shell_command` sets before its loop. -/
def startCommand (name : CharPtr) : ShellCommand where
  name := name
  argc := 0
  priority := 1
  background := false
  argv := []

/-- Every round but the last takes a character off the line. -/
def parseShellCommand (line : CharPtr) : Option ShellCommand :=
  let next := stdstringNextToken line 0 [0x20]
  parseArgs (line.length + 1) next.2 next.1 (startCommand (copyString next.2 next.1.tokenStart))

section Tokens

def isSpace (c : UInt8) : Bool := c = 0x20

/-- What `stdstring_next_token` finds at `&line[ str ]`: a word, and the text behind the separator
that ends it. -/
structure ReadsToken (line : CharPtr) (str : Nat) (token : Token) (line' : CharPtr) : Prop where
  word : cstr (line'.drop token.tokenStart) = firstWord isSpace (cstr (line.drop str))
  after : (token.afterToken = none ∧ afterWord isSpace (cstr (line.drop str)) = []) ∨
    ∃ a q, token.afterToken = some q ∧ isSpace a ∧
      afterWord isSpace (cstr (line.drop str)) = a :: cstr (line'.drop q)

theorem stdstrContainsChar_space (c : UInt8) : stdstrContainsChar c [0x20] = isSpace c := by
  by_cases hc : c = 0x20 <;> simp [stdstrContainsChar, isSpace, hc]

theorem drop_length_takeWhile {α : Type*} (p : α → Bool) (s : List α) :
    s.drop (s.takeWhile p).length = s.dropWhile p := by
  have h : (s.takeWhile p ++ s.dropWhile p).drop (s.takeWhile p).length = s.dropWhile p :=
    List.drop_left
  rwa [List.takeWhile_append_dropWhile] at h

theorem takeWhile_scan (p : UInt8 → Bool) (s : CharPtr) :
    (s.takeWhile fun c => c ≠ 0 && p c) = (cstr s).takeWhile p := by
  rw [cstr, List.takeWhile_takeWhile]
  congr 1
  funext c
  simp [Bool.and_comm]

/-- A loop over the characters up to the NUL moves along the string. -/
theorem cstr_drop_scan (p : UInt8 → Bool) (line : CharPtr) (i : Nat) :
    cstr (line.drop (i + ((line.drop i).takeWhile fun c => c ≠ 0 && p c).length)) =
      (cstr (line.drop i)).dropWhile p := by
  rw [takeWhile_scan, ← List.drop_drop, Fat.cstr_drop (List.takeWhile_sublist p).length_le,
    drop_length_takeWhile]

theorem cstr_set {s : CharPtr} {n : Nat} (hs : n < s.length) (h : n ≤ (cstr s).length) :
    cstr (s.set n 0) = (cstr s).take n := by
  induction s generalizing n with
  | nil => simp at hs
  | cons c s ih =>
    cases n with
    | zero => simp [cstr]
    | succ n =>
      by_cases hc : c = 0
      · subst hc
        exact absurd h (by simp [cstr])
      · rw [Fat.cstr_cons_of_ne hc, List.length_cons] at h
        rw [List.set_cons_succ, Fat.cstr_cons_of_ne hc, Fat.cstr_cons_of_ne hc,
          List.take_succ_cons, ih (by simpa using hs) (by omega)]

theorem cstr_drop_of_ne {line : CharPtr} {i : Nat} (h : CharPtr.at line i ≠ 0) :
    i < line.length ∧ cstr (line.drop i) = CharPtr.at line i :: cstr (line.drop (i + 1)) := by
  by_cases hi : i < line.length
  · rw [CharPtr.at, List.getD_eq_getElem _ _ hi] at h ⊢
    rw [List.drop_eq_getElem_cons hi, Fat.cstr_cons_of_ne h]
    exact ⟨hi, rfl⟩
  · exact absurd (List.getD_eq_default _ _ (Nat.le_of_not_lt hi)) h

theorem cstr_drop_of_eq {line : CharPtr} {i : Nat} (h : CharPtr.at line i = 0) :
    cstr (line.drop i) = [] := by
  by_cases hi : i < line.length
  · rw [CharPtr.at, List.getD_eq_getElem _ _ hi] at h
    rw [List.drop_eq_getElem_cons hi, h]
    rfl
  · rw [List.drop_eq_nil_of_le (Nat.le_of_not_lt hi)]
    rfl

theorem stdstringNextToken_reads (line : CharPtr) (str : Nat) :
    ReadsToken line str (stdstringNextToken line str [0x20]).1
      (stdstringNextToken line str [0x20]).2 := by
  have hstart := cstr_drop_scan isSpace line str
  simp only [stdstringNextToken, stdstrContainsChar_space]
  generalize str + ((line.drop str).takeWhile fun c => c ≠ 0 && isSpace c).length = start at hstart ⊢
  have hstop := cstr_drop_scan (fun c => !isSpace c) line start
  have hword : (line.drop start).takeWhile (fun c => c ≠ 0 && !isSpace c) =
      firstWord isSpace (cstr (line.drop str)) := by
    rw [takeWhile_scan, hstart, firstWord]
  rw [hstart] at hstop
  rw [hword] at hstop ⊢
  have hsplit := firstWord_append_afterWord isSpace (cstr (line.drop str))
  rw [← hstart] at hsplit
  change _ = afterWord isSpace (cstr (line.drop str)) at hstop
  have hlen : (firstWord isSpace (cstr (line.drop str))).length ≤ (cstr (line.drop start)).length := by
    simp [← hsplit]
  split
  case isTrue hne =>
    obtain ⟨hlt, hcons⟩ := cstr_drop_of_ne hne
    rw [hstop] at hcons
    constructor
    · simp only
      rw [List.drop_set, if_neg (by omega), Nat.add_sub_cancel_left,
        cstr_set (by rw [List.length_drop]; omega) hlen, ← hsplit, List.take_left]
    · refine Or.inr ⟨_, _, rfl, afterWord_cons hcons, ?_⟩
      rw [hcons, List.drop_set_of_lt (by omega)]
  case isFalse heq =>
    have hnil := cstr_drop_of_eq (not_not.mp heq)
    rw [hstop] at hnil
    constructor
    · simp only
      rw [← hsplit, hnil, List.append_nil]
    · exact Or.inl ⟨rfl, hnil⟩

end Tokens

section Words

/-- The text that the next call reads, and how many more calls it allows. -/
def restText (line : CharPtr) (token : Token) : List UInt8 :=
  token.afterToken.elim [] fun q => cstr (line.drop q)

def callsLeft (line : CharPtr) (token : Token) : Nat :=
  token.afterToken.elim 0 fun q => (cstr (line.drop q)).length + 1

def isControl (w : List UInt8) : Bool := w = [0x26] ∨ w = [0x21]

/-- The words behind the name. -/
def wordsBehindName (line : CharPtr) : List (List UInt8) := (words isSpace (cstr line)).tail

/-- The words in front of the first `&` or `!`. -/
def argWords (ws : List (List UInt8)) : List (List UInt8) := ws.takeWhile fun w => !isControl w

/-- The first `&` or `!`. -/
def controlWord (ws : List (List UInt8)) : Option (List UInt8) := ws.find? isControl

/-- The loop over the words behind the name. -/
def collect : List (List UInt8) → ShellCommand → ShellCommand
  | [], r => r
  | w :: ws, r =>
    if r.argc < 10 then
      if w = [0x26] then { r with background := true }
      else if w = [0x21] then { r with priority := 0 }
      else collect ws { r with argv := r.argv ++ [w ++ [0]], argc := r.argc + 1 }
    else r

variable {line line' : CharPtr} {str : Nat} {token : Token}

theorem ReadsToken.callsLeft_le (h : ReadsToken line str token line') :
    callsLeft line' token ≤ (cstr (line.drop str)).length := by
  cases h.after with
  | inl hnone => simp [callsLeft, hnone.1]
  | inr hsome =>
    obtain ⟨a, q, hq, -, hafter⟩ := hsome
    have hlen := congrArg List.length (firstWord_append_afterWord isSpace
      (cstr (line.drop str)))
    have hdrop := (List.dropWhile_sublist isSpace (l := cstr (line.drop str))).length_le
    rw [hafter, List.length_append, List.length_cons] at hlen
    simp only [callsLeft, hq, Option.elim_some]
    omega

theorem ReadsToken.words_rest (h : ReadsToken line str token line') :
    words isSpace (afterWord isSpace (cstr (line.drop str))) =
      words isSpace (restText line' token) := by
  cases h.after with
  | inl hnone => simp [restText, hnone]
  | inr hsome =>
    obtain ⟨a, q, hq, ha, hafter⟩ := hsome
    rw [hafter, words_cons_sep ha]
    simp [restText, hq]

theorem copyString_eq (line : CharPtr) (p : Nat) :
    copyString line p = cstr (line.drop p) ++ [0] := by
  have hchar (s : CharPtr) : (List.range ((cstr s).length + 1)).map (CharPtr.at s) =
      cstr s ++ [0] := by
    induction s with
    | nil => rfl
    | cons c s ih =>
      by_cases hc : c = 0
      · simp [cstr, hc, CharPtr.at]
      · rw [Fat.cstr_cons_of_ne hc, List.length_cons, List.range_succ_eq_map, List.map_cons,
          List.map_map, List.cons_append, ← ih]
        rfl
  have hat : (fun i => CharPtr.at line (p + i)) = CharPtr.at (line.drop p) := by
    funext i
    simp [CharPtr.at, List.getD_eq_getElem?_getD]
  rw [copyString, hat, hchar]

/-- Behind an empty token there is nothing left. -/
theorem ReadsToken.words_empty (h : ReadsToken line str token line')
    (hw : cstr (line'.drop token.tokenStart) = []) : words isSpace (restText line' token) = [] := by
  rw [h.word] at hw
  rw [← h.words_rest, afterWord_of_firstWord_nil hw, words_nil]

theorem collect_full {r : ShellCommand} (h : ¬ r.argc < 10) (ws : List (List UInt8)) :
    collect ws r = r := by
  cases ws with
  | nil => rfl
  | cons w ws => rw [collect, if_neg h]

theorem compare_eq_zero {s w : CharPtr} (hw : 0 ∉ w) : stdstringCompare s w = 0 ↔ cstr s = w := by
  rw [Fat.stdstringCompare_eq_zero, Fat.cstr_of_no_nul hw]

theorem parseArgs_eq {fuel : Nat} (r : ShellCommand) (hfuel : callsLeft line token < fuel) :
    parseArgs fuel line token r = some (collect (words isSpace (restText line token)) r) := by
  induction fuel generalizing line token r with
  | zero => omega
  | succ fuel ih =>
    cases hafter : token.afterToken with
    | none => simp [parseArgs, hafter, restText, words_nil, collect]
    | some q =>
      have hread := stdstringNextToken_reads line q
      have hcalls := hread.callsLeft_le
      have hrest : restText line token = cstr (line.drop q) := by simp [restText, hafter]
      have hleft : callsLeft line token = (cstr (line.drop q)).length + 1 := by
        simp [callsLeft, hafter]
      have hnext (r : ShellCommand) := ih r (show callsLeft (stdstringNextToken line q [0x20]).2
        (stdstringNextToken line q [0x20]).1 < fuel by omega)
      have hwords := words_eq isSpace (cstr (line.drop q))
      rw [hread.words_rest, ← hread.word] at hwords
      simp only [parseArgs, hafter, compare_eq_zero (w := [0x26]) (by decide),
        compare_eq_zero (w := [0x21]) (by decide), copyString_eq, hnext, hrest, hwords]
      have hempty := hread.words_empty
      generalize cstr ((stdstringNextToken line q [0x20]).2.drop
        (stdstringNextToken line q [0x20]).1.tokenStart) = w at hempty ⊢
      by_cases hroom : r.argc < 10
      · rw [if_pos hroom]
        cases w with
        | nil => simp [hempty rfl]
        | cons c w => simp [collect, if_pos hroom, apply_ite some]
      · rw [if_neg hroom, collect_full hroom]

/-- The line is its words: the first is the name, and the loop goes over the others. -/
theorem parseShellCommand_eq (line : CharPtr) : parseShellCommand line =
    some (collect (wordsBehindName line)
      (startCommand ((words isSpace (cstr line)).headD [] ++ [0]))) := by
  have hread := stdstringNextToken_reads line 0
  have hcalls := hread.callsLeft_le
  have hlen : (cstr line).length ≤ line.length := (List.takeWhile_sublist _).length_le
  rw [List.drop_zero] at hcalls
  have hname := hread.word
  have hwords := words_eq isSpace (cstr line)
  have hrest := hread.words_rest
  rw [List.drop_zero] at hname hrest
  rw [hrest, ← hname] at hwords
  rw [parseShellCommand, parseArgs_eq _ (by omega), copyString_eq, wordsBehindName, hwords]
  by_cases hw : cstr ((stdstringNextToken line 0 [0x20]).2.drop
      (stdstringNextToken line 0 [0x20]).1.tokenStart) = []
  · simp [hw, hread.words_empty hw]
  · simp [if_neg hw]

end Words

section Reference

theorem isControl_iff {w : List UInt8} : isControl w ↔ w = [0x26] ∨ w = [0x21] := by
  simp [isControl]

theorem collect_args {r : ShellCommand} (ws : List (List UInt8)) (h : r.argc = r.argv.length) :
    (collect ws r).name = r.name ∧ (collect ws r).argc = (collect ws r).argv.length ∧
      (collect ws r).argv = r.argv ++ ((argWords ws).take (10 - r.argc)).map (· ++ [0]) := by
  induction ws generalizing r with
  | nil => simp [collect, h, argWords]
  | cons w ws ih =>
    by_cases hroom : r.argc < 10
    · by_cases hw : isControl w
      · have hargs : argWords (w :: ws) = [] := by simp [argWords, hw]
        rw [collect, if_pos hroom, hargs]
        cases isControl_iff.mp hw with
        | inl hbg => simp [hbg, h]
        | inr hpr => simp [hpr, h]
      · have hargs : argWords (w :: ws) = w :: argWords ws := by simp [argWords, hw]
        rw [isControl_iff, not_or] at hw
        obtain ⟨hname, hargc, hargv⟩ := ih (r := { r with
          argv := r.argv ++ [w ++ [0]], argc := r.argc + 1 }) (by simp [h])
        have hsub : 10 - r.argc = 10 - (r.argc + 1) + 1 := by omega
        rw [collect, if_pos hroom, if_neg hw.1, if_neg hw.2, hargs, hsub, List.take_succ_cons,
          List.map_cons]
        refine ⟨hname, hargc, ?_⟩
        rw [hargv, List.append_assoc, List.singleton_append]
    · have hzero : 10 - r.argc = 0 := by omega
      rw [collect_full hroom, hzero]
      simp [h]

/-- The flags are set where the loop gets as far as the control word. -/
theorem collect_flags (r : ShellCommand) (ws : List (List UInt8)) :
    (collect ws r).background =
      (r.background || (controlWord ws = some [0x26] ∧ r.argc + (argWords ws).length < 10)) ∧
    (collect ws r).priority =
      if controlWord ws = some [0x21] ∧ r.argc + (argWords ws).length < 10 then 0
      else r.priority := by
  induction ws generalizing r with
  | nil => simp [collect, controlWord]
  | cons w ws ih =>
    by_cases hroom : r.argc < 10
    · by_cases hw : isControl w
      · have hargs : argWords (w :: ws) = [] := by simp [argWords, hw]
        have hcontrol : controlWord (w :: ws) = some w := by simp [controlWord, hw]
        rw [collect, if_pos hroom, hargs, hcontrol]
        cases isControl_iff.mp hw with
        | inl hbg => simp [hbg, hroom]
        | inr hpr => simp [hpr, hroom]
      · have hargs : argWords (w :: ws) = w :: argWords ws := by simp [argWords, hw]
        have hcontrol : controlWord (w :: ws) = controlWord ws := by simp [controlWord, hw]
        rw [isControl_iff, not_or] at hw
        have hnext := ih { r with argv := r.argv ++ [w ++ [0]], argc := r.argc + 1 }
        rw [collect, if_pos hroom, if_neg hw.1, if_neg hw.2, hargs, hcontrol, List.length_cons]
        simpa [Nat.add_assoc, Nat.add_comm 1] using hnext
    · rw [collect_full hroom]
      have hout : ¬ r.argc + (argWords (w :: ws)).length < 10 := by omega
      simp [hout]

end Reference

section Results

/-- The command is the words of the line, however the spaces lie. -/
theorem parseShellCommand_words (line : CharPtr) : ∃ r, parseShellCommand line = some r ∧
    r.name = (words isSpace (cstr line)).headD [] ++ [0] ∧
    r.argv = ((argWords (wordsBehindName line)).take 10).map (· ++ [0]) ∧
    r.argc = r.argv.length ∧ r.argc ≤ 10 ∧ [0] ∉ r.argv := by
  have hparse := parseShellCommand_eq line
  have hargs := collect_args (wordsBehindName line)
    (r := startCommand ((words isSpace (cstr line)).headD [] ++ [0])) rfl
  generalize collect (wordsBehindName line) _ = r at hparse hargs
  obtain ⟨hname, hargc, hargv⟩ := hargs
  simp only [startCommand, List.nil_append, Nat.sub_zero] at hname hargv
  refine ⟨r, hparse, hname, hargv, hargc, ?_, ?_⟩
  · rw [hargc, hargv, List.length_map]
    exact List.length_take_le 10 _
  · rw [hargv, List.mem_map]
    intro ⟨w, hw, hnil⟩
    have hempty : w = [] := by simpa using hnil
    have hmem := (List.takeWhile_sublist _).subset (List.mem_of_mem_take hw)
    exact nil_notMem_words _ (hempty ▸ List.mem_of_mem_tail hmem)

/-- The flags tell the first control word behind the name. -/
def FlagsRight (line : CharPtr) : Prop := ∃ r, parseShellCommand line = some r ∧
  (r.background = true ↔ controlWord (wordsBehindName line) = some [0x26]) ∧
  (r.priority = 0 ↔ controlWord (wordsBehindName line) = some [0x21]) ∧
  (r.priority = 0 ∨ r.priority = 1)

/-- With ten arguments in front of it the control word is not read any more. -/
theorem flagsRight_iff (line : CharPtr) : FlagsRight line ↔
    controlWord (wordsBehindName line) = none ∨
      (argWords (wordsBehindName line)).length < 10 := by
  have hparse := parseShellCommand_eq line
  have hflags := collect_flags (startCommand ((words isSpace (cstr line)).headD [] ++ [0]))
    (wordsBehindName line)
  generalize collect (wordsBehindName line) _ = r at hparse hflags
  obtain ⟨hbg, hpr⟩ := hflags
  simp only [startCommand, Bool.false_or, Nat.zero_add] at hbg hpr
  cases hcontrol : controlWord (wordsBehindName line) with
  | none => simp [FlagsRight, hparse, hbg, hpr, hcontrol]
  | some w =>
    have hw := isControl_iff.mp (List.find?_some hcontrol)
    by_cases hlen : (argWords (wordsBehindName line)).length < 10
    · cases hw with
      | inl hw => simp [FlagsRight, hparse, hbg, hpr, hcontrol, hw, hlen]
      | inr hw => simp [FlagsRight, hparse, hbg, hpr, hcontrol, hw, hlen]
    · cases hw with
      | inl hw => simp [FlagsRight, hparse, hbg, hpr, hcontrol, hw, hlen]
      | inr hw => simp [FlagsRight, hparse, hbg, hpr, hcontrol, hw, hlen]

/-- The line `p 1 1 1 1 1 1 1 1 1 1 &`. -/
def fullLine : CharPtr := [0x70, 0x20] ++ (List.replicate 10 [0x31, 0x20]).flatten ++ [0x26]

/-- It is to run in the background, and does not. -/
theorem fullLine_flags : (argWords (wordsBehindName fullLine)).length ≤ 10 ∧
    ¬ FlagsRight fullLine := by
  refine ⟨by decide, ?_⟩
  intro h
  obtain ⟨r, hr, hbg, -⟩ := h
  have hcontrol : controlWord (wordsBehindName fullLine) = some [0x26] := by decide
  have hflag : (parseShellCommand fullLine).map (·.background) = some false := by decide
  rw [hr, Option.map_some, Option.some.injEq, hbg.mpr hcontrol] at hflag
  exact absurd hflag (by decide)

end Results

end MalapropOS.Shell
