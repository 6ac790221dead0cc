import Mathlib.Data.List.Induction
import MalapropOS.Fat.SplitName
import MalapropOS.Fat.Kept
import MalapropOS.Fat.Descent
import MalapropOS.Lib.TreeWalk

/-! Paths of short names: how the resolvers take them apart, and the walk down the tree that they
make of them. -/
namespace MalapropOS.Fat
open TreeWalk

/-- A component of a path: a name of 1 to 8 characters, and up to 3 characters of extension. -/
structure ShortName where
  name : List UInt8
  extension : List UInt8
  nonempty : name ≠ []
  name_length : name.length ≤ 8
  extension_length : extension.length ≤ 3
  plain : ∀ c ∈ name ++ extension, c ≠ 0 ∧ c ≠ slash ∧ c ≠ dot

/-- A dot stands in front of an extension only. -/
def ShortName.text (c : ShortName) : CharPtr :=
  if c.extension = [] then c.name else c.name ++ dot :: c.extension

def pathText (cs : List ShortName) : CharPtr := [slash].intercalate (cs.map ShortName.text)

/-- The path is that of the components; one slash may stand in front. -/
def Spells (path : CharPtr) (cs : List ShortName) : Prop := cstr (stripSlash path) = pathText cs

/-- The name and the extension of an entry are exactly those of the component. -/
def ShortName.Names (c : ShortName) (e : DirEntry) : Prop :=
  cstr e.filename = c.name ∧ cstr e.extension = c.extension

instance (c : ShortName) (e : DirEntry) : Decidable (c.Names e) :=
  inferInstanceAs (Decidable (_ ∧ _))

/-- The array for the name holds the string. -/
def ShortName.Fits (c : ShortName) : Prop := c.name.length < 8 ∨ c.extension = []

instance (c : ShortName) : Decidable c.Fits := inferInstanceAs (Decidable (_ ∨ _))

/-- A listing on the disk: that of the root directory, or of a subdirectory of the tree. -/
def Listing (fs : Fat16) (d : Disk) (dir : List ListEntry) : Prop :=
  dir = getRootDir fs d ∨ ∃ f, LiveEntry fs d f ∧ getDir fs d f.entry = some (some dir)

/-- Every directory of the tree comes to an end. -/
def ListingsEnd (fs : Fat16) (d : Disk) : Prop := ∀ f, LiveEntry fs d f → getDir fs d f.entry ≠ none

/-- Within each directory no name with its extension occurs twice. -/
def DistinctNames (fs : Fat16) (d : Disk) : Prop :=
  ∀ dir, Listing fs d dir → ∀ f ∈ dir, ∀ g ∈ dir,
    cstr f.entry.filename = cstr g.entry.filename →
    cstr f.entry.extension = cstr g.entry.extension → f = g

/-- The directory that an entry stands for. -/
def childrenOf (fs : Fat16) (d : Disk) (f : ListEntry) : Option (List ListEntry) :=
  (getDir fs d f.entry).join

/-- No entry lies in two directories. -/
def OneParent (fs : Fat16) (d : Disk) : Prop :=
  ∀ f g dir dir' e, LiveEntry fs d f → LiveEntry fs d g → childrenOf fs d f = some dir →
    childrenOf fs d g = some dir' → e ∈ dir → e ∈ dir' → f = g

section Text
variable {c next : ShortName} {cs rest : List ShortName} {path : CharPtr}

theorem ShortName.mem_text {x : UInt8} (h : x ∈ c.text) : x = dot ∨ x ∈ c.name ++ c.extension := by
  rw [ShortName.text] at h
  split_ifs at h
  · exact Or.inr (List.mem_append_left _ h)
  · cases List.mem_append.mp h with
    | inl hm => exact Or.inr (List.mem_append_left _ hm)
    | inr hm => exact (List.mem_cons.mp hm).imp_right fun hm => List.mem_append_right _ hm

theorem ShortName.no_nul : (0 : UInt8) ∉ c.text := by
  intro h
  cases ShortName.mem_text h with
  | inl he => exact absurd he (by decide)
  | inr hm => exact (c.plain 0 hm).1 rfl

theorem ShortName.no_slash : slash ∉ c.text := by
  intro h
  cases ShortName.mem_text h with
  | inl he => exact absurd he (by decide)
  | inr hm => exact (c.plain slash hm).2.1 rfl

theorem ShortName.no_dot : ∀ x ∈ c.name, (decide (x ≠ dot)) = true :=
  fun x hx => decide_eq_true (c.plain x (List.mem_append_left _ hx)).2.2

theorem ShortName.name_pos : 0 < c.name.length := List.length_pos_of_ne_nil c.nonempty

theorem ShortName.name_length_le : c.name.length ≤ c.text.length := by
  rw [ShortName.text]
  split_ifs
  · exact Nat.le_refl _
  · rw [List.length_append]
    exact Nat.le_add_right _ _

/-- The name is what stands in front of the dot. -/
theorem beforeDot_text : beforeDot c.text = c.name := by
  rw [beforeDot, ShortName.text]
  split_ifs
  · exact List.takeWhile_eq_self_iff.mpr ShortName.no_dot
  · rw [List.takeWhile_append_of_pos ShortName.no_dot, List.takeWhile_cons_of_neg (by simp),
      List.append_nil]

theorem nameChars_text : nameChars c.text = c.name := by
  rw [nameChars_eq, cstr_of_no_nul ShortName.no_nul, beforeDot_text,
    List.take_of_length_le c.name_length]

theorem extension_text : (splitFilename c.text).extension = c.extension := by
  rw [extension_eq, nameChars_text]
  by_cases hnil : c.extension = []
  · have htext : c.text = c.name := by rw [ShortName.text, if_pos hnil]
    rw [htext, if_pos (at_end (Nat.le_refl _)), hnil]
  · have htext : c.text = c.name ++ dot :: c.extension := by rw [ShortName.text, if_neg hnil]
    have hat : CharPtr.at c.text c.name.length = dot := by simp [htext, CharPtr.at]
    have hdrop : c.text.drop (c.name.length + 1) = c.extension := by
      rw [htext, List.append_cons]
      exact List.drop_left' (by simp)
    have hplain : (0 : UInt8) ∉ c.extension :=
      fun hm => (c.plain 0 (List.mem_append_right _ hm)).1 rfl
    rw [hat, if_neg (by decide), hdrop, List.take_of_length_le c.extension_length]
    exact cstr_of_no_nul hplain

/-- The test of `find_file`, for the entries of a listing. A name that fills its array runs on into
the extension and fits no entry. -/
theorem entryNamed_text {e : DirEntry} (he : (cstr e.filename).length ≤ 8) :
    entryNamed (splitFilename c.text) e ↔ c.Fits ∧ c.Names e := by
  rw [entryNamed_iff, cstr_name, nameChars_text, extension_text,
    cstr_of_no_nul (fun hm => (c.plain 0 (List.mem_append_right _ hm)).1 rfl)]
  by_cases hfits : c.Fits
  · have hrun : (if c.name.length < 8 then [] else c.extension) = [] := by
      split_ifs with hlt
      · rfl
      · exact hfits.resolve_left hlt
    rw [hrun, List.append_nil, ShortName.Names, eq_comm, eq_comm (a := c.extension)]
    exact (and_iff_right hfits).symm
  · refine iff_of_false (fun h => ?_) fun h => hfits h.1
    obtain ⟨hfull, hext⟩ := not_or.mp hfits
    rw [if_neg hfull] at h
    have hlen := congrArg List.length h.1
    rw [List.length_append] at hlen
    have := List.length_pos_of_ne_nil hext
    omega

theorem pathText_cons : pathText (c :: next :: rest) = c.text ++ slash :: pathText (next :: rest) := by
  simp [pathText]

theorem ShortName.text_pos : 0 < c.text.length :=
  ShortName.name_pos.trans_le ShortName.name_length_le

theorem pathText_pos (hne : cs ≠ []) : 0 < (pathText cs).length := by
  cases cs with
  | nil => exact absurd rfl hne
  | cons c cs =>
    cases cs with
    | nil => simpa [pathText] using ShortName.text_pos (c := c)
    | cons next rest =>
      rw [pathText_cons, List.length_append]
      have := ShortName.text_pos (c := c)
      omega

/-- The parts are those of the path, unless that is a single character. -/
theorem Spells.splitPath_eq (h : Spells path cs) (hne : cs ≠ []) :
    splitPath path = if (pathText cs).length = 1 then [] else cs.map ShortName.text := by
  have hone : CharPtr.at (stripSlash path) 1 = 0 ↔ (pathText cs).length = 1 := by
    rw [at_eq_zero_iff (by rw [h]; exact pathText_pos hne), h]
  have hparts : (cstr (stripSlash path)).splitOn slash = cs.map ShortName.text := by
    rw [h]
    refine List.splitOn_intercalate slash (fun part hpart => ?_) (by simpa using hne)
    obtain ⟨c, -, rfl⟩ := List.mem_map.mp hpart
    exact ShortName.no_slash
  rw [splitPath]
  exact if_congr hone rfl hparts

theorem Spells.parts (h : Spells path (c :: next :: rest)) :
    splitPath path = c.text :: next.text :: rest.map ShortName.text := by
  have hlong : (pathText (c :: next :: rest)).length ≠ 1 := by
    have := ShortName.text_pos (c := c)
    have := pathText_pos (List.cons_ne_nil next rest)
    rw [pathText_cons, List.length_append, List.length_cons]
    omega
  rw [h.splitPath_eq (List.cons_ne_nil _ _), if_neg hlong]
  rfl

theorem Spells.part (h : Spells path [c]) :
    splitPath path = if c.text.length = 1 then [] else [c.text] := by
  have htext : pathText [c] = c.text := by simp [pathText]
  rw [h.splitPath_eq (List.cons_ne_nil _ _), htext]
  rfl

/-- Going down leaves the path of the other components. -/
theorem Spells.descend (h : Spells path (c :: next :: rest)) :
    Spells (descendPath path) (next :: rest) := by
  have hmem : slash ∈ cstr (stripSlash path) := by
    rw [h, pathText_cons]
    simp
  obtain ⟨part, hpart, he⟩ := descendPath_split hmem
  rw [h, pathText_cons] at he
  have hdrop : ∀ s : List UInt8, slash ∉ s → ∀ t : List UInt8,
      (s ++ slash :: t).dropWhile (· ≠ slash) = slash :: t := by
    intro s hs t
    have hall : ∀ x ∈ s, (decide (x ≠ slash)) = true :=
      fun x hx => decide_eq_true fun he => hs (he ▸ hx)
    rw [List.dropWhile_append_of_pos hall]
    exact List.dropWhile_cons_of_neg (by simp)
  have htail := congrArg (List.dropWhile (· ≠ slash)) he
  rw [hdrop _ ShortName.no_slash, hdrop _ hpart] at htail
  exact (List.cons.inj htail).2.symm

theorem pathText_append (c : ShortName) (cs : List ShortName) :
    ∃ tail, pathText (c :: cs) = c.text ++ tail := by
  cases cs with
  | nil => exact ⟨[], by simp [pathText]⟩
  | cons next rest => exact ⟨_, pathText_cons⟩

theorem pathText_no_slash (hne : cs ≠ []) (tail : List UInt8) : pathText cs ≠ slash :: tail := by
  intro h
  cases cs with
  | nil => exact hne rfl
  | cons c cs =>
    obtain ⟨t, ht⟩ := pathText_append c cs
    rw [ht] at h
    cases hc : c.text with
    | nil => exact absurd (ShortName.text_pos (c := c)) (by simp [hc])
    | cons x s =>
      rw [hc, List.cons_append] at h
      have hs : slash ∈ c.text := by simp [hc, (List.cons.inj h).1]
      exact ShortName.no_slash hs

/-- An absolute path without its leading slash. -/
theorem Spells.of_absolute {pathname : CharPtr} (hne : cs ≠ [])
    (h : cstr pathname = slash :: pathText cs) : Spells (pathname.drop 1) cs := by
  cases pathname with
  | nil => simp [cstr] at h
  | cons x s =>
    have hx : x ≠ 0 := by
      intro hx
      simp [cstr, hx] at h
    rw [cstr_cons_of_ne hx] at h
    have htail : cstr s = pathText cs := (List.cons.inj h).2
    have hhead : CharPtr.at s 0 ≠ slash := by
      intro hs
      rw [cstr_of_absolute hs] at htail
      exact pathText_no_slash hne _ htail.symm
    rw [Spells, List.drop_one, List.tail_cons, stripSlash, if_neg hhead, htail]

theorem pathText_length (cs : List ShortName) : cs.length ≤ (pathText cs).length := by
  induction cs with
  | nil => exact Nat.le_refl _
  | cons c cs ih =>
    have hpos := ShortName.text_pos (c := c)
    cases cs with
    | nil => exact pathText_pos (List.cons_ne_nil c [])
    | cons next rest =>
      rw [pathText_cons, List.length_append, List.length_cons, List.length_cons (a := slash)]
      omega

theorem Spells.length_le (h : Spells path cs) : cs.length ≤ path.length := by
  have hstrip : (stripSlash path).length ≤ path.length := by
    rw [stripSlash]
    split_ifs
    · exact (List.drop_sublist 1 path).length_le
    · exact Nat.le_refl _
  have htext : (cstr (stripSlash path)).length ≤ (stripSlash path).length :=
    (List.takeWhile_prefix _).length_le
  rw [h] at htext
  exact (pathText_length cs).trans (htext.trans hstrip)

end Text

section Walk
variable {fs : Fat16} {d : Disk} {dir : List ListEntry}

/-- How a resolver looks components up, by its two tests. The last part of an empty split finds
nothing. -/
def resolverLookup (last inner : CharPtr → DirEntry → Bool) : Lookup ShortName ListEntry where
  inner c dir := dir.reverse.find? fun f => inner c.text f.entry
  last c dir := if c.text.length = 1 then none else dir.find? fun f => last c.text f.entry

/-- A loop in which each element that passes the test sets the result: the last of them decides. -/
theorem foldlM_find {α β : Type} {F : Option β → α → Option (Option β)} (test : α → Bool)
    (g : α → Option β) {l : List α} (hskip : ∀ a ∈ l, test a = false → ∀ b, F b a = some b)
    (hset : ∀ a ∈ l, test a = true → ∀ b, F b a = some (g a)) :
    l.foldlM F none = some ((l.reverse.find? test).bind g) := by
  induction l using List.reverseRecOn with
  | nil => rfl
  | append_singleton l a ih =>
    have ih := ih (fun x hx => hskip x (by simp [hx])) fun x hx => hset x (by simp [hx])
    rw [List.foldlM_append, ih, List.reverse_append, List.reverse_singleton, List.singleton_append,
      List.find?_cons]
    cases ht : test a with
    | true => simp [hset a (by simp) ht]
    | false => simp [hskip a (by simp) ht]

theorem childrenOf_eq_some {f : ListEntry} :
    childrenOf fs d f = some dir ↔ getDir fs d f.entry = some (some dir) :=
  Option.join_eq_some_iff

theorem Listing.live (h : Listing fs d dir) : ∀ f ∈ dir, LiveEntry fs d f := by
  intro f hf
  cases h with
  | inl hroot => exact .root (hroot ▸ hf)
  | inr hsub =>
    obtain ⟨g, hg, hd⟩ := hsub
    exact .child hg hd hf

theorem Listing.down (h : Listing fs d dir) {f : ListEntry} (hf : f ∈ dir) {below : List ListEntry}
    (hd : childrenOf fs d f = some below) : Listing fs d below :=
  Or.inr ⟨f, h.live f hf, childrenOf_eq_some.mp hd⟩

/-- A subdirectory of the tree has a listing. -/
theorem ListingsEnd.listing (hends : ListingsEnd fs d) {f : ListEntry} (hf : LiveEntry fs d f)
    (hs : isSubdirectory f.entry.attributes) :
    ∃ below, getDir fs d f.entry = some (some below) := by
  have hsome := hends f hf
  rw [getDir, if_pos hs] at hsome ⊢
  cases hc : listChain fs d walkFuel f.entry.firstCluster with
  | none => exact absurd (by rw [hc]; rfl) hsome
  | some below => exact ⟨below, rfl⟩

/-- A resolver walks down the tree along the components of the path. -/
theorem resolveFuel_walk (hends : ListingsEnd fs d) {last inner : CharPtr → DirEntry → Bool}
    (hinner : ∀ part e, inner part e = true → isSubdirectory e.attributes = true)
    {cs : List ShortName} (hne : cs ≠ []) {fuel : Nat} (hfuel : cs.length ≤ fuel) {path : CharPtr}
    (h : Spells path cs) (hdir : Listing fs d dir) :
    resolveFuel fs d last inner fuel path dir =
      some (walk (childrenOf fs d) (resolverLookup last inner) cs dir) := by
  induction cs generalizing fuel path dir with
  | nil => exact absurd rfl hne
  | cons c cs ih =>
    obtain ⟨fuel, rfl⟩ : ∃ n, fuel = n + 1 := ⟨fuel - 1, by rw [List.length_cons] at hfuel; omega⟩
    cases cs with
    | nil =>
      have hlast : (resolverLookup last inner).last c dir =
          if c.text.length = 1 then none else dir.find? fun f => last c.text f.entry := rfl
      rw [resolveFuel, h.part, walk, hlast]
      split_ifs <;> rfl
    | cons next rest =>
      rw [resolveFuel, h.parts, walk]
      refine (foldlM_find (fun f => inner c.text f.entry) (fun f =>
        (childrenOf fs d f).bind (walk (childrenOf fs d) (resolverLookup last inner) (next :: rest)))
        (fun f _ ht r => by simp [ht]) fun f hf ht r => ?_).trans ?_
      · obtain ⟨below, hd⟩ := hends.listing (hdir.live f hf) (hinner _ _ ht)
        have hc : childrenOf fs d f = some below := childrenOf_eq_some.mpr hd
        have hrec := ih (List.cons_ne_nil _ _) (by simpa using hfuel) h.descend (hdir.down hf hc)
        simp [ht, hd, hc, hrec]
      · rw [Option.bind_assoc]
        rfl

end Walk
end MalapropOS.Fat
