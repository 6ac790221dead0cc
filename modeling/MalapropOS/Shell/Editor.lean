import Mathlib.Data.List.Basic
import Mathlib.Data.Nat.Find
import MalapropOS.Lib.TwoList

/-! The line editor of `sh.c`, without the printing. A line is a buffer of `contents_bytes`
characters and a NUL behind them; every edit moves a part of the buffer by one place. -/
namespace MalapropOS.Shell
open Function (update)

/-- `shell_line_t`. The last place of the buffer holds a NUL. -/
structure ShellLine where
  contents : Nat → UInt8
  contentsBytes : Nat
  cursorPosition : Int
  terminated : contents contentsBytes = 0

def makeLine (contents : Nat → UInt8) (contentsBytes : Nat) : ShellLine where
  contents := update contents contentsBytes 0
  contentsBytes := contentsBytes
  cursorPosition := 0
  terminated := by simp

def stdstringLength (str : Nat → UInt8) (h : ∃ len, str len = 0) : Nat := Nat.find h

def ShellLine.length (line : ShellLine) : Nat :=
  stdstringLength line.contents ⟨line.contentsBytes, line.terminated⟩

/-- The loop of `line_insert` from `i` on, `n` rounds. -/
def shiftRight (contents : Nat → UInt8) (prev : UInt8) (i : Nat) : Nat → Nat → UInt8
  | 0 => contents
  | n + 1 => shiftRight (update contents i prev) (contents i) (i + 1) n

/-- The loop of `line_backspace` from `i` on, `n` rounds. -/
def shiftLeft (contents : Nat → UInt8) (i : Nat) : Nat → Nat → UInt8
  | 0 => contents
  | n + 1 => shiftLeft (update contents i (contents (i + 1))) (i + 1) n

theorem shiftRight_apply (contents : Nat → UInt8) (prev : UInt8) (i n j : Nat) :
    shiftRight contents prev i n j =
      if i ≤ j ∧ j < i + n then (if j = i then prev else contents (j - 1)) else contents j := by
  induction n generalizing contents prev i with
  | zero => rw [shiftRight, if_neg (by omega)]
  | succ n ih =>
    rw [shiftRight, ih]
    by_cases hj : j = i
    · subst hj
      have hout : ¬ (j + 1 ≤ j ∧ j < j + 1 + n) := by omega
      have hin : j ≤ j ∧ j < j + (n + 1) := by omega
      rw [if_neg hout, if_pos hin, if_pos rfl, Function.update_self]
    · by_cases hin : i + 1 ≤ j ∧ j < i + 1 + n
      · have hin' : i ≤ j ∧ j < i + (n + 1) := by omega
        rw [if_pos hin, if_pos hin', if_neg hj]
        by_cases hn : j = i + 1
        · rw [if_pos hn, hn, Nat.add_sub_cancel]
        · rw [if_neg hn, Function.update_of_ne (by omega)]
      · have hout : ¬ (i ≤ j ∧ j < i + (n + 1)) := by omega
        rw [if_neg hin, if_neg hout, Function.update_of_ne hj]

theorem shiftLeft_apply (contents : Nat → UInt8) (i n j : Nat) :
    shiftLeft contents i n j = if i ≤ j ∧ j < i + n then contents (j + 1) else contents j := by
  induction n generalizing contents i with
  | zero => rw [shiftLeft, if_neg (by omega)]
  | succ n ih =>
    rw [shiftLeft, ih]
    by_cases hj : j = i
    · subst hj
      rw [if_neg (by omega), if_pos (by omega), Function.update_self]
    · by_cases hin : i < j ∧ j < i + 1 + n
      · rw [if_pos (by omega), if_pos (by omega), Function.update_of_ne (by omega)]
      · rw [if_neg (by omega), if_neg (by omega), Function.update_of_ne hj]

def lineInsert (line : ShellLine) (c : UInt8) : ShellLine :=
  if h : 0 ≤ line.cursorPosition ∧ line.cursorPosition < line.contentsBytes then
    { line with
      contents := update (shiftRight line.contents 0x20 line.cursorPosition.toNat
        (line.contentsBytes - line.cursorPosition.toNat)) line.cursorPosition.toNat c
      cursorPosition := line.cursorPosition + 1
      terminated := by
        rw [Function.update_of_ne (by omega), shiftRight_apply, if_neg (by omega)]
        exact line.terminated }
  else line

def lineBackspace (line : ShellLine) : ShellLine :=
  if 0 < line.cursorPosition ∧ line.cursorPosition ≤ line.contentsBytes then
    { line with
      contents := update (shiftLeft line.contents (line.cursorPosition - 1).toNat
        (line.contentsBytes - (line.cursorPosition - 1).toNat)) line.contentsBytes 0
      cursorPosition := line.cursorPosition - 1
      terminated := by simp }
  else
    { line with
      contents := update line.contents line.contentsBytes 0
      terminated := by simp }

def lineControlSeq (next afterNext : UInt8) (line : ShellLine) : ShellLine :=
  if next ≠ 0x5b then                                     -- [
    lineInsert (lineInsert line 0x5e) next                -- ^
  else if afterNext = 0x44 then                           -- D, left arrow
    if line.cursorPosition > 0 then { line with cursorPosition := line.cursorPosition - 1 } else line
  else if afterNext = 0x43 then                           -- C, right arrow
    if line.cursorPosition < line.length then
      { line with cursorPosition := line.cursorPosition + 1 }
    else line
  else line

/-- How far `get_line` has got when its input is used up. -/
inductive LineEnd where
  | typing
  | entered
  | interrupted
  deriving DecidableEq

/-- The loop of `get_line` on the characters that `get_next_char` delivers: the line, how it
ended, and the characters that are left. -/
def getLineLoop : List UInt8 → ShellLine → ShellLine × LineEnd × List UInt8
  | [], line => (line, .typing, [])
  | c :: rest, line =>
    if c = 0x0d then (line, .entered, rest)
    else if c = 3 then (line, .interrupted, rest)
    else if c = 0x7f then getLineLoop rest (lineBackspace line)
    else if c = 27 then
      match rest with
      | next :: afterNext :: rest => getLineLoop rest (lineControlSeq next afterNext line)
      | _ => (line, .typing, [])
    else getLineLoop rest (lineInsert line c)

/-- The string that `get_line` copies out. -/
def copiedLine (line : ShellLine) (buf : Nat → UInt8) (nbytes : Nat) : Nat → UInt8 :=
  update (fun i => if i < 101 then line.contents i else buf i) (nbytes - 1) 0

/-- The line starts in a fresh block. The result is the caller's buffer and the input that is left;
there is none while the line is being typed. -/
def getLine (block : Nat → UInt8) (buf : Nat → UInt8) (nbytes : Nat) (input : List UInt8) :
    Option ((Nat → UInt8) × List UInt8) :=
  match getLineLoop input (makeLine block 100) with
  | (_, .typing, _) => none
  | (_, .interrupted, rest) => some (update buf 0 0, rest)
  | (line, .entered, rest) => some (copiedLine line buf nbytes, rest)

/-- What the user can do to the line. -/
inductive Key where
  | insert (c : UInt8)
  | backspace
  | left
  | right
  | caret (c : UInt8)
  | ignored

def press (e : TwoList.Line UInt8) : Key → TwoList.Line UInt8
  | .insert c => e.insert 100 c
  | .backspace => e.backspace
  | .left => e.left
  | .right => e.right
  | .caret c => (e.insert 100 0x5e).insert 100 c
  | .ignored => e

def controlKey (next afterNext : UInt8) : Key :=
  if next ≠ 0x5b then .caret next
  else if afterNext = 0x44 then .left
  else if afterNext = 0x43 then .right
  else .ignored

/-- The keys of an input up to the end of the line. -/
def keys : List UInt8 → List Key × LineEnd × List UInt8
  | [] => ([], .typing, [])
  | c :: rest =>
    if c = 0x0d then ([], .entered, rest)
    else if c = 3 then ([], .interrupted, rest)
    else if c = 0x7f then (.backspace :: (keys rest).1, (keys rest).2)
    else if c = 27 then
      match rest with
      | next :: afterNext :: rest => (controlKey next afterNext :: (keys rest).1, (keys rest).2)
      | _ => ([], .typing, [])
    else (.insert c :: (keys rest).1, (keys rest).2)

/-- The C string at `str`. -/
def Holds (str : Nat → UInt8) (text : List UInt8) : Prop :=
  0 ∉ text ∧ ∀ i ≤ text.length, str i = text.getD i 0

theorem Holds.length {str : Nat → UInt8} {text : List UInt8} (h : Holds str text)
    (hz : ∃ len, str len = 0) : stdstringLength str hz = text.length := by
  refine (Nat.find_eq_iff hz).mpr ⟨?_, fun i hi hzero => ?_⟩
  · rw [h.2 _ le_rfl]
    simp
  · rw [h.2 i (Nat.le_of_lt hi), List.getD_eq_getElem _ _ hi] at hzero
    exact h.1 (hzero ▸ List.getElem_mem hi)

/-- The buffer shows the text of the reference line, with NULs behind it, and the cursor stands
where the two lists meet. -/
structure Shows (line : ShellLine) (e : TwoList.Line UInt8) : Prop where
  bytes : line.contentsBytes = 100
  cursor : line.cursorPosition = e.before.length
  contents : ∀ i ≤ 100, line.contents i = e.text.getD i 0
  fits : e.text.length ≤ 100
  nonzero : 0 ∉ e.text

theorem Shows.holds {line : ShellLine} {e : TwoList.Line UInt8} (h : Shows line e) :
    Holds line.contents e.text :=
  ⟨h.nonzero, fun i hi => h.contents i (Nat.le_trans hi h.fits)⟩

theorem Shows.length {line : ShellLine} {e : TwoList.Line UInt8} (h : Shows line e) :
    line.length = e.text.length :=
  h.holds.length _

theorem Shows.makeLine {block : Nat → UInt8} (h : ∀ i ≤ 100, block i = 0) :
    Shows (makeLine block 100) TwoList.empty := by
  refine ⟨rfl, rfl, fun i hi => ?_, Nat.zero_le _, List.not_mem_nil⟩
  by_cases hc : i = 100
  · simp [Shell.makeLine, TwoList.empty, TwoList.Line.text, hc]
  · simp [Shell.makeLine, TwoList.empty, TwoList.Line.text, hc, h i hi]

theorem Shows.insert {line : ShellLine} {e : TwoList.Line UInt8} {c : UInt8} (h : Shows line e)
    (hc : c ≠ 0) : Shows (lineInsert line c) (e.insert 100 c) := by
  have hbytes := h.bytes
  have hcur := h.cursor
  by_cases hb : e.before.length < 100
  · have hin : 0 ≤ line.cursorPosition ∧ line.cursorPosition < line.contentsBytes := by omega
    have hpos : line.cursorPosition.toNat = e.before.length := by omega
    have hzero : 0 ∉ (e.insert 100 c).text := fun hm =>
      (TwoList.mem_text_insert hm).elim (fun h0 => hc h0.symm) h.nonzero
    rw [lineInsert, dif_pos hin]
    refine ⟨hbytes, ?_, fun i hi => ?_, TwoList.length_insert_le h.fits, hzero⟩
    · rw [TwoList.Line.insert, if_pos hb]
      simp only [hcur, List.length_append, List.length_singleton]
      omega
    · simp only [hpos, hbytes]
      rw [TwoList.getD_insert hb]
      by_cases hib : i = e.before.length
      · rw [if_neg (by omega), if_pos hib, hib, Function.update_self]
      · rw [Function.update_of_ne hib, if_neg hib, shiftRight_apply]
        cases Nat.lt_or_gt_of_ne hib with
        | inl hlt =>
          -- left of the cursor nothing moves
          rw [if_neg (by omega), if_pos hlt]
          exact h.contents i hi
        | inr hgt =>
          rw [if_neg (Nat.lt_asymm hgt)]
          by_cases h100 : i < 100
          · rw [if_pos (by omega), if_neg hib, if_pos h100]
            exact h.contents (i - 1) (by omega)
          · have hfits := h.fits
            rw [if_neg (by omega), if_neg h100, h.contents i hi, List.getD_eq_default _ _ (by omega)]
  · have hout : ¬ (0 ≤ line.cursorPosition ∧ line.cursorPosition < line.contentsBytes) := by omega
    rw [lineInsert, dif_neg hout, TwoList.Line.insert, if_neg hb]
    exact h

theorem Shows.backspace {line : ShellLine} {e : TwoList.Line UInt8} (h : Shows line e) :
    Shows (lineBackspace line) e.backspace := by
  have hbytes := h.bytes
  have hcur := h.cursor
  have hfits := h.fits
  have hlen := TwoList.length_backspace_le e
  have hzero : 0 ∉ e.backspace.text := fun hm => h.nonzero (TwoList.mem_text_backspace hm)
  by_cases hb : 0 < e.before.length
  · have hin : 0 < line.cursorPosition ∧ line.cursorPosition ≤ line.contentsBytes := by
      rw [TwoList.Line.text, List.length_append] at hfits
      omega
    have hpos : (line.cursorPosition - 1).toNat = e.before.length - 1 := by omega
    rw [lineBackspace, if_pos hin]
    refine ⟨hbytes, ?_, fun i hi => ?_, Nat.le_trans hlen hfits, hzero⟩
    · simp only [hcur, TwoList.Line.backspace, List.length_dropLast]
      omega
    · simp only [hpos, hbytes]
      rw [TwoList.getD_backspace hb]
      by_cases hi100 : i = 100
      · rw [hi100, Function.update_self, if_neg (by
          rw [TwoList.Line.text, List.length_append] at hfits
          omega), List.getD_eq_default _ _ (by omega)]
      · rw [Function.update_of_ne hi100, shiftLeft_apply]
        by_cases hib : i < e.before.length - 1
        · rw [if_neg (by omega), if_pos hib]
          exact h.contents i hi
        · rw [if_pos (by omega), if_neg hib]
          exact h.contents (i + 1) (by omega)
  · have hout : ¬ (0 < line.cursorPosition ∧ line.cursorPosition ≤ line.contentsBytes) := by omega
    have hnil : e.before = [] := List.length_eq_zero_iff.mp (by omega)
    obtain ⟨before, after⟩ := e
    obtain rfl : before = [] := hnil
    rw [lineBackspace, if_neg hout]
    refine ⟨hbytes, hcur, fun i hi => ?_, hfits, hzero⟩
    show update line.contents line.contentsBytes 0 i = (TwoList.Line.text ⟨[], after⟩).getD i 0
    rw [← h.contents i hi]
    by_cases hi100 : i = line.contentsBytes
    · rw [hi100, Function.update_self, line.terminated]
    · rw [Function.update_of_ne hi100]

theorem Shows.left {line : ShellLine} {e : TwoList.Line UInt8} (h : Shows line e)
    (hpos : line.cursorPosition > 0) :
    Shows { line with cursorPosition := line.cursorPosition - 1 } e.left := by
  have htext := TwoList.text_left e
  obtain ⟨hbytes, hcur, hcontents, hfits, hzero⟩ := h
  rw [← htext] at hcontents hfits hzero
  refine ⟨hbytes, ?_, hcontents, hfits, hzero⟩
  obtain ⟨before, after⟩ := e
  rcases List.eq_nil_or_concat before with rfl | ⟨b, x, rfl⟩
  · simp only [List.length_nil] at hcur
    omega
  · rw [List.concat_eq_append] at *
    rw [TwoList.left_concat]
    simp only [List.length_append, List.length_singleton] at hcur ⊢
    omega

theorem Shows.right {line : ShellLine} {e : TwoList.Line UInt8} (h : Shows line e)
    (hlt : line.cursorPosition < line.length) :
    Shows { line with cursorPosition := line.cursorPosition + 1 } e.right := by
  rw [h.length] at hlt
  have htext := TwoList.text_right e
  obtain ⟨hbytes, hcur, hcontents, hfits, hzero⟩ := h
  rw [← htext] at hcontents hfits hzero
  refine ⟨hbytes, ?_, hcontents, hfits, hzero⟩
  obtain ⟨before, after⟩ := e
  cases after with
  | nil =>
    simp only [TwoList.Line.text, List.append_nil] at hlt hcur
    omega
  | cons x after =>
    simp only [TwoList.Line.right, List.length_append, List.length_singleton] at hcur ⊢
    omega

theorem Shows.control {line : ShellLine} {e : TwoList.Line UInt8} {next afterNext : UInt8}
    (h : Shows line e) (hn : next ≠ 0) :
    Shows (lineControlSeq next afterNext line) (press e (controlKey next afterNext)) := by
  unfold lineControlSeq controlKey
  split
  · exact (h.insert (by decide)).insert hn
  · split
    · split
      · next hpos => exact h.left hpos
      · next hpos =>
        -- at the start of the line
        have hnil : e.before = [] := by
          rw [← List.length_eq_zero_iff]
          have := h.cursor
          omega
        obtain ⟨before, after⟩ := e
        obtain rfl : before = [] := hnil
        exact h
    · split
      · split
        · next hlt => exact h.right hlt
        · next hlt =>
          -- at the end of the text
          have hnil : e.after = [] := by
            rw [← List.length_eq_zero_iff]
            have hcur := h.cursor
            rw [h.length, TwoList.Line.text, List.length_append] at hlt
            omega
          obtain ⟨before, after⟩ := e
          obtain rfl : after = [] := hnil
          exact h
      · exact h

/-- One round of the loop makes the edit of one key. -/
theorem Shows.loop {input : List UInt8} {line : ShellLine} {e : TwoList.Line UInt8}
    (h : Shows line e) (hz : 0 ∉ input) :
    Shows (getLineLoop input line).1 ((keys input).1.foldl press e) ∧
      (getLineLoop input line).2 = (keys input).2 := by
  have htail : ∀ {c : UInt8} {rest : List UInt8}, 0 ∉ c :: rest → 0 ∉ rest :=
    fun hz hm => hz (List.mem_cons_of_mem _ hm)
  fun_induction getLineLoop input line generalizing e with
  | case1 line => exact ⟨h, rfl⟩
  | case2 rest line =>
    rw [keys.eq_def]
    exact ⟨h, rfl⟩
  | case3 rest line =>
    rw [keys.eq_def]
    exact ⟨h, rfl⟩
  | case4 rest line _ _ ih =>
    rw [keys.eq_def]
    exact ih h.backspace (htail hz)
  | case5 line next afterNext rest _ _ _ ih =>
    have hn : next ≠ 0 := by
      rintro rfl
      exact hz (by simp)
    rw [keys.eq_def]
    exact ih (h.control hn) (htail (htail (htail hz)))
  | case6 rest line hshort =>
    -- the input ends inside an escape sequence
    rw [keys.eq_def]
    rcases rest with - | ⟨next, - | ⟨afterNext, rest⟩⟩
    · exact ⟨h, rfl⟩
    · exact ⟨h, rfl⟩
    · exact absurd rfl (hshort next afterNext rest)
  | case7 c rest line h1 h2 h3 h4 ih =>
    have hc : c ≠ 0 := by
      rintro rfl
      exact hz (by simp)
    rw [keys.eq_def]
    simp only [h1, h2, h3, h4, if_false]
    exact ih (h.insert hc) (htail hz)

theorem getLine_ends (block buf : Nat → UInt8) (nbytes : Nat) (input : List UInt8) :
    ((getLineLoop input (makeLine block 100)).2.1 = .typing →
      getLine block buf nbytes input = none) ∧
    ((getLineLoop input (makeLine block 100)).2.1 = .entered →
      getLine block buf nbytes input =
        some (copiedLine (getLineLoop input (makeLine block 100)).1 buf nbytes,
          (getLineLoop input (makeLine block 100)).2.2)) ∧
    ((getLineLoop input (makeLine block 100)).2.1 = .interrupted →
      getLine block buf nbytes input =
        some (update buf 0 0, (getLineLoop input (makeLine block 100)).2.2)) := by
  unfold getLine
  rcases getLineLoop input (makeLine block 100) with ⟨line, lineEnd, rest⟩
  cases lineEnd <;> simp

theorem Shows.copied {line : ShellLine} {e : TwoList.Line UInt8} (h : Shows line e)
    (buf : Nat → UInt8) {nbytes : Nat} (hb : 101 ≤ nbytes) :
    Holds (copiedLine line buf nbytes) e.text := by
  refine ⟨h.nonzero, fun i hi => ?_⟩
  have hfits := h.fits
  have hi100 : i < 101 := by omega
  by_cases hlast : i = nbytes - 1
  · rw [copiedLine, hlast, Function.update_self, List.getD_eq_default]
    omega
  · rw [copiedLine, Function.update_of_ne hlast, if_pos hi100]
    exact h.contents i (by omega)

/-- For every input without NULs the state of the line is that of the reference editor, and what
`get_line` returns is its text, or the empty string after Ctrl+C. -/
theorem getLine_refines (block : Nat → UInt8) (hblock : ∀ i ≤ 100, block i = 0)
    (input : List UInt8) (hinput : 0 ∉ input) :
    let line := (getLineLoop input (makeLine block 100)).1
    let e := (keys input).1.foldl press TwoList.empty
    (0 ≤ line.cursorPosition ∧ line.cursorPosition ≤ line.length ∧ line.length ≤ 100 ∧
      line.contents 100 = 0) ∧
    (Holds line.contents e.text ∧ line.cursorPosition = e.before.length) ∧
    ∀ buf nbytes, 101 ≤ nbytes →
      ((keys input).2.1 = .typing → getLine block buf nbytes input = none) ∧
      ((keys input).2.1 = .entered → ∃ out, Holds out e.text ∧
        getLine block buf nbytes input = some (out, (keys input).2.2)) ∧
      ((keys input).2.1 = .interrupted → ∃ out, Holds out [] ∧
        getLine block buf nbytes input = some (out, (keys input).2.2)) := by
  obtain ⟨hs, hend⟩ := (Shows.makeLine hblock).loop hinput
  intro line e
  have hcur : line.cursorPosition = e.before.length := hs.cursor
  have hlen : line.length = e.text.length := hs.length
  have hle : e.before.length ≤ e.text.length := by
    simp [TwoList.Line.text]
  have hfits := hs.fits
  refine ⟨⟨by omega, by omega, hlen ▸ hfits, hs.bytes ▸ line.terminated⟩, ⟨hs.holds, hcur⟩, ?_⟩
  intro buf nbytes hb
  obtain ⟨htyping, hentered, hinterrupted⟩ := getLine_ends block buf nbytes input
  rw [← hend]
  refine ⟨htyping, fun ht => ⟨_, hs.copied buf hb, hentered ht⟩, fun ht => ⟨_, ?_, hinterrupted ht⟩⟩
  refine ⟨List.not_mem_nil, fun i hi => ?_⟩
  obtain rfl : i = 0 := Nat.le_zero.mp hi
  simp

/-- `ac`, the left arrow, `b` and return. -/
def typedLine : List UInt8 := [0x61, 0x63, 27, 0x5b, 0x44, 0x62, 0x0d]

theorem typedLine_refines : ∃ out, Holds out [0x61, 0x62, 0x63] ∧
    getLine (fun _ => 0) (fun _ => 0) 101 typedLine = some (out, []) := by
  have h := getLine_refines (fun _ => 0) (fun _ _ => rfl) typedLine (by decide)
  exact (h.2.2 (fun _ => 0) 101 le_rfl).2.1 (by decide)

end MalapropOS.Shell
