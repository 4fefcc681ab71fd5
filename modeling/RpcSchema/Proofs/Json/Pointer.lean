import RpcSchema.Json.Pointer
import RpcSchema.Reference

/-!
# Segments and steps

A pointer is split at its slashes, and in a segment a tilde starts an escape.  A name that
is written with its escapes is read as it was, and so the pointer to a member leads to it.
A name without slashes and tildes is a segment that stands for itself, and the local
reference to the component of such a name leads to that component.

The name of the schema that a reference is to is its last piece as it is written.  Where
the piece starts with no sign that is dropped at the front of a fragment, it is a segment.

## Main definitions

* `Pointer.Plain` — names without slashes and tildes.
* `Pointer.escapeChar` — a character as it is written in a segment.

## Main results

* `Pointer.unescape_escape` — a name is read as it is written.
* `Pointer.segments_child` — the segments of the pointer to a member.
* `Pointer.unescape_of_notMem` — a name without tildes stands for itself.
* `Pointer.segments_toComponent` — the segments of the reference to a component.
* `Reference.name_mem_segments` — the name of the schema referred to is a segment.
* `Json.at?_append` — steps one after the other.
* `Json.locate?_child` — the pointer to a member leads to it.
* `Json.descend?_of_members` — plain segments lead down the members of those names.
-/

namespace RpcSchema

/-! ### Pieces -/

section Pieces

variable {separator c : Char} {cs rest : List Char}

theorem splitChars_of_notMem (h : separator ∉ cs) : splitChars separator cs = [cs] := by
  induction cs with
  | nil => rfl
  | cons d cs ih =>
    obtain ⟨hd, hcs⟩ := List.ne_and_not_mem_of_not_mem_cons h
    rw [splitChars, if_neg (Ne.symm hd), ih hcs]

theorem splitChars_ne_nil (separator : Char) (cs : List Char) : splitChars separator cs ≠ [] := by
  cases cs with
  | nil => simp [splitChars]
  | cons c cs =>
    unfold splitChars
    split
    · simp
    · split <;> simp

/-- Pieces on both sides of a separator. -/
theorem splitChars_append (separator : Char) (cs rest : List Char) :
    splitChars separator (cs ++ separator :: rest)
      = splitChars separator cs ++ splitChars separator rest := by
  induction cs with
  | nil => simp [splitChars]
  | cons d cs ih =>
    rw [List.cons_append, splitChars, splitChars, ih]
    by_cases hd : d = separator
    · rw [if_pos hd, if_pos hd, List.cons_append]
    · rw [if_neg hd, if_neg hd]
      cases hpieces : splitChars separator cs with
      | nil => exact absurd hpieces (splitChars_ne_nil separator cs)
      | cons piece pieces => rfl

/-- The last piece is one of the pieces. -/
theorem lastPiece_mem (separator : Char) (cs : List Char) :
    lastPiece separator cs ∈ splitChars separator cs := by
  rw [lastPiece, List.getLast?_eq_some_getLast (splitChars_ne_nil separator cs), Option.getD_some]
  exact List.getLast_mem _

/-- A character in front belongs to the last piece only when it is the first of it. -/
theorem lastPiece_cons (separator c : Char) (cs : List Char) :
    lastPiece separator (c :: cs) = lastPiece separator cs ∨
      lastPiece separator (c :: cs) = c :: lastPiece separator cs := by
  by_cases hc : c = separator
  · left
    rw [lastPiece, splitChars, if_pos hc, List.getLast?_cons, Option.getD_some, lastPiece,
      List.getLast?_eq_some_getLast (splitChars_ne_nil separator cs)]
  · rw [lastPiece, splitChars, if_neg hc, lastPiece]
    cases hpieces : splitChars separator cs with
    | nil => exact absurd hpieces (splitChars_ne_nil separator cs)
    | cons piece pieces =>
      cases pieces with
      | nil => exact Or.inr rfl
      | cons other others => exact Or.inl rfl

/-- What is dropped in front leaves the last piece as it is, if that starts with nothing
of the kind. -/
theorem lastPiece_dropWhile {p : Char → Bool} {piece : List Char}
    (h : lastPiece separator cs = c :: piece) (hc : p c = false) :
    lastPiece separator (cs.dropWhile p) = c :: piece := by
  induction cs with
  | nil => exact h
  | cons d cs ih =>
    by_cases hd : p d = true
    · rw [List.dropWhile_cons_of_pos hd]
      rcases lastPiece_cons separator d cs with hcs | hcs
      · exact ih (hcs ▸ h)
      · rw [hcs] at h
        rw [(List.cons.inj h).1, hc] at hd
        cases hd
    · rwa [List.dropWhile_cons_of_neg hd]

/-- Where its first character does not occur, nothing is replaced. -/
theorem replaceFrom_of_notMem {beginning replacement : List Char} (h : c ∉ cs) :
    replaceFrom (c :: beginning) replacement 0 cs = cs := by
  induction cs with
  | nil => rfl
  | cons d cs ih =>
    obtain ⟨hd, hcs⟩ := List.ne_and_not_mem_of_not_mem_cons h
    have hnone : dropLeading? (c :: beginning) (d :: cs) = none := by
      rw [dropLeading?, if_neg hd]
    simp only [replaceFrom, hnone, Option.isSome_none, Bool.false_eq_true, if_false, ih hcs]

/-- Every occurrence of a single character is replaced. -/
theorem replaceAll_singleton (c : Char) (replacement cs : List Char) :
    replaceAll [c] replacement cs = cs.flatMap fun d => if d = c then replacement else [d] := by
  unfold replaceAll
  induction cs with
  | nil => rfl
  | cons d cs ih =>
    rw [replaceFrom, List.flatMap_cons]
    by_cases hd : d = c
    · rw [if_pos hd, hd, ← ih]
      simp [dropLeading?]
    · have hne : c ≠ d := Ne.symm hd
      rw [if_neg hd, ← ih]
      simp [dropLeading?, hne]

end Pieces

namespace Pointer

/-- Names without slashes and tildes, which need no escapes. -/
def Plain (name : String) : Prop := '/' ∉ name.toList ∧ '~' ∉ name.toList

instance (name : String) : Decidable (Plain name) :=
  inferInstanceAs (Decidable (_ ∧ _))

/-- Without tildes there are no escapes. -/
theorem unescape_of_notMem {name : String} (h : '~' ∉ name.toList) : unescape name = name := by
  have hslash : replaceText name "~1" "/" = name := by
    unfold replaceText replaceAll
    rw [show "~1".toList = ['~', '1'] from rfl, replaceFrom_of_notMem h, String.ofList_toList]
  have htilde : replaceText name "~0" "~" = name := by
    unfold replaceText replaceAll
    rw [show "~0".toList = ['~', '0'] from rfl, replaceFrom_of_notMem h, String.ofList_toList]
  rw [unescape, hslash, htilde]

/-- A character as it is written in a segment. -/
def escapeChar (c : Char) : List Char :=
  if c = '~' then ['~', '0'] else if c = '/' then ['~', '1'] else [c]

theorem toList_escape (name : String) : (escape name).toList = name.toList.flatMap escapeChar := by
  simp only [escape, replaceText, String.toList_ofList]
  rw [show "~".toList = ['~'] from rfl, show "/".toList = ['/'] from rfl, replaceAll_singleton,
    replaceAll_singleton, List.flatMap_assoc]
  congr
  funext c
  by_cases htilde : c = '~'
  · simp [htilde, escapeChar]
  · by_cases hslash : c = '/' <;> simp [htilde, hslash, escapeChar]

theorem slash_notMem_escape (name : String) : '/' ∉ (escape name).toList := by
  rw [toList_escape, List.mem_flatMap]
  rintro ⟨c, -, hc⟩
  unfold escapeChar at hc
  split at hc
  · simp at hc
  · split at hc
    · simp at hc
    · next hslash => exact hslash (List.mem_singleton.mp hc).symm

/-- **A name is read as it is written.** -/
theorem unescape_escape (name : String) : unescape (escape name) = name := by
  -- Slashes are read back first.  No `~1` arises from a tilde, which is followed by a `0`.
  have hslash : ∀ cs : List Char, replaceAll ['~', '1'] ['/'] (cs.flatMap escapeChar)
      = cs.flatMap fun c => if c = '~' then ['~', '0'] else [c] := by
    intro cs
    unfold replaceAll
    induction cs with
    | nil => rfl
    | cons c cs ih =>
      rw [List.flatMap_cons, List.flatMap_cons, ← ih, escapeChar]
      by_cases htilde : c = '~'
      · simp [htilde, replaceFrom, dropLeading?]
      · have hne : '~' ≠ c := Ne.symm htilde
        by_cases hc : c = '/'
        · simp [hc, replaceFrom, dropLeading?]
        · simp [htilde, hne, hc, replaceFrom, dropLeading?]
  -- Then each tilde that is left is followed by a `0`.
  have htilde : ∀ cs : List Char, replaceAll ['~', '0'] ['~']
      (cs.flatMap fun c => if c = '~' then ['~', '0'] else [c]) = cs := by
    intro cs
    unfold replaceAll
    induction cs with
    | nil => rfl
    | cons c cs ih =>
      rw [List.flatMap_cons]
      by_cases hc : c = '~'
      · simp [hc, replaceFrom, dropLeading?, ih]
      · have hne : '~' ≠ c := Ne.symm hc
        simp [hc, hne, replaceFrom, dropLeading?, ih]
  simp only [unescape, replaceText, String.toList_ofList, toList_escape]
  rw [show "~1".toList = ['~', '1'] from rfl, show "/".toList = ['/'] from rfl,
    show "~0".toList = ['~', '0'] from rfl, show "~".toList = ['~'] from rfl, hslash, htilde,
    String.ofList_toList]

/-- Below a pointer, members of different names have different pointers. -/
theorem child_injective (pointer : String) : Function.Injective (child pointer) := by
  intro name name' h
  have hescape : escape name = escape name' := String.ext (by
    have htext := congrArg String.toList h
    simpa [child] using htext)
  rw [← unescape_escape name, hescape, unescape_escape]

/-- **The segments of the pointer to a member** end in the name of the member. -/
theorem segments_child {pointer : String}
    (h : (pointer.toList.dropWhile (· = '#')).dropWhile (· = '/') ≠ []) (name : String) :
    segments (child pointer name) = segments pointer ++ [escape name] := by
  have hhash : pointer.toList.dropWhile (· = '#') ≠ [] := by
    intro hempty
    rw [hempty] at h
    exact h rfl
  have hchild : (child pointer name).toList = pointer.toList ++ '/' :: (escape name).toList := by
    simp [child]
  have hpath : ((child pointer name).toList.dropWhile (· = '#')).dropWhile (· = '/')
      = (pointer.toList.dropWhile (· = '#')).dropWhile (· = '/')
        ++ '/' :: (escape name).toList := by
    rw [hchild, List.dropWhile_append, if_neg (by simpa using hhash), List.dropWhile_append,
      if_neg (by simpa using h)]
  unfold segments
  simp only [hpath]
  rw [if_neg (by simp), if_neg (by simpa using h), splitChars_append,
    splitChars_of_notMem (slash_notMem_escape name), List.map_append, List.map_singleton,
    String.ofList_toList]

/-- **The segments of the reference to a component**, if its name has no slashes. -/
theorem segments_toComponent {name : String} (h : '/' ∉ name.toList) :
    segments (Reference.toComponent name) = ["components", "schemas", name] := by
  have hpath : ((Reference.toComponent name).toList.dropWhile (· = '#')).dropWhile (· = '/')
      = "components".toList ++ '/' :: ("schemas".toList ++ '/' :: name.toList) := by
    rw [Reference.toComponent, Reference.componentsPointer, String.toList_append,
      String.toList_append]
    rfl
  have hcomponents : '/' ∉ "components".toList := by decide
  have hschemas : '/' ∉ "schemas".toList := by decide
  unfold segments
  simp only [hpath]
  rw [splitChars_append, splitChars_append, splitChars_of_notMem hcomponents,
    splitChars_of_notMem hschemas, splitChars_of_notMem h]
  simp

end Pointer

/-- **The name of the schema that a reference is to is a segment** of its pointer, if it
starts with no sign that is dropped at the front of a fragment. -/
theorem Reference.name_mem_segments {reference : String} {c : Char} {rest : List Char}
    (hname : (Reference.name reference).toList = c :: rest) (hhash : c ≠ '#') (hslash : c ≠ '/') :
    Reference.name reference ∈ Pointer.segments (Reference.fragment reference) := by
  have hlast : lastPiece '/' (Reference.fragment reference).toList = c :: rest := by
    rw [← hname, Reference.name, String.toList_ofList]
  have hdrop := lastPiece_dropWhile (p := (· = '/'))
    (lastPiece_dropWhile (p := (· = '#')) hlast (by simpa using hhash)) (by simpa using hslash)
  have hmem := lastPiece_mem '/'
    (((Reference.fragment reference).toList.dropWhile (· = '#')).dropWhile (· = '/'))
  have heq : Reference.name reference = String.ofList (c :: rest) := by
    rw [Reference.name, hlast]
  unfold Pointer.segments
  dsimp only
  rw [if_neg, heq]
  · rw [hdrop] at hmem
    exact List.mem_map_of_mem hmem
  · intro hempty
    rw [List.isEmpty_iff.mp hempty] at hdrop
    cases hdrop

/-! ### Steps -/

namespace Json

@[simp] theorem at?_nil (value : Json) : value.at? [] = some value := rfl

theorem at?_cons (value : Json) (step : Step) (steps : List Step) :
    value.at? (step :: steps) = (value.child? step).bind fun part => part.at? steps := rfl

theorem at?_append (value : Json) (steps steps' : List Step) :
    value.at? (steps ++ steps') = (value.at? steps).bind fun part => part.at? steps' := by
  induction steps generalizing value with
  | nil => rfl
  | cons step steps ih =>
    rw [List.cons_append, at?_cons, at?_cons]
    cases value.child? step with
    | none => rfl
    | some part => exact ih part

theorem at?_member (fields : Fields Json) (name : String) (steps : List Step) :
    (object fields).at? (.member name :: steps)
      = (Fields.get? fields name).bind fun part => part.at? steps := rfl

@[simp] theorem at?_member_nil (fields : Fields Json) (name : String) :
    (object fields).at? [.member name] = Fields.get? fields name := by
  rw [at?_member]
  cases Fields.get? fields name <;> rfl

/-- Nothing stands below a text. -/
theorem at?_string {text : String} {steps : List Step} {part : Json}
    (h : (string text).at? steps = some part) : steps = [] ∧ part = string text := by
  cases steps with
  | nil => exact ⟨rfl, (Option.some.inj h).symm⟩
  | cons step steps => cases step <;> cases h

theorem descend?_append (value : Json) (segments rest : List String) :
    value.descend? (segments ++ rest) = (value.descend? segments).bind fun found =>
      (found.2.descend? rest).map fun last => (found.1 ++ last.1, last.2) := by
  induction segments generalizing value with
  | nil => simp [descend?]
  | cons segment segments ih =>
    rw [List.cons_append, descend?, descend?]
    cases value.step? segment with
    | none => rfl
    | some step =>
      cases hchild : value.child? step with
      | none => simp [hchild]
      | some part =>
        simp only [Option.bind_some, hchild, ih]
        cases part.descend? segments with
        | none => rfl
        | some found => simp [Option.map_map, Function.comp_def]

/-- **The pointer to a member leads to it.** -/
theorem locate?_child {root part : Json} {pointer name : String} {steps : List Step}
    {fields : Fields Json}
    (hpointer : (pointer.toList.dropWhile (· = '#')).dropWhile (· = '/') ≠ [])
    (h : root.locate? pointer = some (steps, .object fields))
    (hget : Fields.get? fields name = some part) :
    root.locate? (Pointer.child pointer name) = some (steps ++ [.member name], part) := by
  have hlast : (object fields).descend? [Pointer.escape name] = some ([.member name], part) := by
    simp [descend?, step?, child?, Pointer.unescape_escape, hget]
  rw [locate?] at h
  rw [locate?, Pointer.segments_child hpointer, descend?_append, h, Option.bind_some, hlast]
  rfl

/-- Names that stand for themselves lead down the members of those names. -/
theorem descend?_of_members {names : List String} {value part : Json}
    (hnames : ∀ name ∈ names, Pointer.unescape name = name)
    (h : value.at? (names.map .member) = some part) :
    value.descend? names = some (names.map .member, part) := by
  induction names generalizing value with
  | nil =>
    obtain rfl := Option.some.inj h
    rfl
  | cons name names ih =>
    obtain ⟨hname, hrest⟩ := List.forall_mem_cons.mp hnames
    rw [List.map_cons, at?] at h
    obtain ⟨below, hchild, hbelow⟩ := Option.bind_eq_some_iff.mp h
    cases value with
    | object fields =>
      rw [descend?, step?, Option.bind_some, hname, hchild, Option.bind_some,
        ih hrest hbelow]
      rfl
    | _ => cases hchild

end Json

end RpcSchema
