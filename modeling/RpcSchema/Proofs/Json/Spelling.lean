import RpcSchema.Proofs.Json.Pointer

/-!
# Paths of steps that are written as they stand

A path can be put together by writing down the steps that were taken, each after a slash: the name
of the member as it is, or the index in decimal digits.  Read as a pointer such a path need not
lead along those steps.  A slash in a name makes two segments of one step, and a tilde may be read
as the beginning of an escape.

A step is verbatim when nothing of the kind can happen to it, as is every index.  The path leads
along the steps exactly when all of them are verbatim: a pointer takes one step for each segment,
so no slash may stand in a name, and then the names must be read as they are written.

## Main definitions

* `Step.text`, `Pointer.spell` — a step, and steps one after the other, as they stand.
* `Step.Leading` — steps whose path loses nothing at the front.
* `Step.Verbatim` — a step that is read as it is written.

## Main results

* `Pointer.segments_spell` — the segments of a path.
* `Pointer.index?_toString` — an index is read as it is written.
* `Json.locate?_spell_iff` — when a path leads along the steps that it was made of.
-/

namespace RpcSchema

/-- The name or the index that a step goes by, as it stands. -/
def Step.text : Step → String
  | .member name => name
  | .item index => toString index

/-- A path with steps written behind it, each after a slash. -/
def Pointer.spell (path : String) (steps : List Step) : String :=
  steps.foldl (fun path step => path ++ "/" ++ step.text) path

/-- Steps whose path loses no sign of its first step at the front: that is not empty and does not
begin with a slash. -/
def Step.Leading (steps : List Step) : Prop :=
  ∀ step ∈ steps.head?, step.text.toList ≠ [] ∧ step.text.toList.head? ≠ some '/'

/-- A step that is one segment and is read as it is written. -/
def Step.Verbatim (step : Step) : Prop :=
  '/' ∉ step.text.toList ∧ Pointer.unescape step.text = step.text

instance (step : Step) : Decidable step.Verbatim :=
  inferInstanceAs (Decidable (_ ∧ _))

/-! ### Pieces -/

theorem length_splitChars (separator : Char) (cs : List Char) :
    (splitChars separator cs).length = cs.count separator + 1 := by
  induction cs with
  | nil => rfl
  | cons c cs ih =>
    rw [splitChars]
    by_cases hc : c = separator
    · rw [if_pos hc, List.length_cons, ih, hc, List.count_cons_self]
    · rw [if_neg hc, List.count_cons_of_ne hc]
      cases hpieces : splitChars separator cs with
      | nil => exact absurd hpieces (splitChars_ne_nil separator cs)
      | cons piece pieces =>
        rw [← ih, hpieces, List.length_cons, List.length_cons]

/-- Pieces with a separator before each of them. -/
theorem splitChars_append_flatMap {α : Type} (separator : Char) (cs : List Char)
    (text : α → List Char) (items : List α) :
    splitChars separator (cs ++ items.flatMap fun item => separator :: text item)
      = splitChars separator cs ++ items.flatMap fun item => splitChars separator (text item) := by
  induction items generalizing cs with
  | nil => rw [List.flatMap_nil, List.flatMap_nil, List.append_nil, List.append_nil]
  | cons item rest ih =>
    rw [List.flatMap_cons, List.flatMap_cons, List.cons_append, splitChars_append, ih]

/-! ### Digits -/

namespace Pointer

theorem toList_toString_index (index : Nat) :
    (toString index).toList = Nat.toDigits 10 index := by
  rw [Nat.toString_eq_ofList_toDigits, String.toList_ofList]

theorem isDigit_of_mem_toString {index : Nat} {c : Char} (h : c ∈ (toString index).toList) :
    c.isDigit = true := by
  rw [toList_toString_index] at h
  exact Nat.isDigit_of_mem_toDigits (by omega) (by omega) h

/-- Digits are read as the number that they write. -/
theorem index?_of_digits (segment : String) (hne : segment.toList ≠ [])
    (h : ∀ c ∈ segment.toList, c.isDigit = true) :
    index? segment = some (Nat.ofDigitChars 10 segment.toList 0) := by
  unfold index?
  extract_lets digits
  -- The first character is a digit and no sign.
  have hdigits : digits = segment.toList := by
    unfold digits
    split
    · next rest heq =>
      have hplus := h '+' (by rw [heq]; exact List.mem_cons_self)
      exact absurd hplus (by decide)
    · rfl
  rw [if_neg]
  · rw [hdigits, Nat.ofDigitChars_eq_foldl]
    simp only [Nat.mul_comm]
  · rw [hdigits]
    simpa [hne] using h

/-- **An index is read as it is written.** -/
theorem index?_toString (index : Nat) : index? (toString index) = some index := by
  have hdigits := index?_of_digits (toString index)
    (by rw [toList_toString_index]; exact Nat.toDigits_ne_nil)
    (fun c hc => isDigit_of_mem_toString hc)
  rw [hdigits, toList_toString_index, Nat.ofDigitChars_ten_toDigits]

/-! ### Segments -/

theorem toList_spell (path : String) (steps : List Step) :
    (spell path steps).toList
      = path.toList ++ steps.flatMap fun step => '/' :: step.text.toList := by
  unfold spell
  induction steps generalizing path with
  | nil => rw [List.foldl_nil, List.flatMap_nil, List.append_nil]
  | cons step rest ih =>
    rw [List.foldl_cons, ih, List.flatMap_cons]
    simp

@[simp] theorem spell_nil (path : String) : spell path [] = path := rfl

theorem spell_append (path : String) (steps steps' : List Step) :
    spell path (steps ++ steps') = spell (spell path steps) steps' :=
  List.foldl_append ..

/-- **The segments of a path** are the pieces of its steps, if nothing is lost at the front. -/
theorem segments_spell {steps : List Step} (h : Step.Leading steps) :
    segments (spell "#" steps)
      = steps.flatMap fun step => (splitChars '/' step.text.toList).map String.ofList := by
  cases steps with
  | nil => rfl
  | cons step rest =>
    obtain ⟨hne, hslash⟩ := h step rfl
    obtain ⟨c, cs, htext⟩ := List.exists_cons_of_ne_nil hne
    have hc : c ≠ '/' := by
      rintro rfl
      exact hslash (by rw [htext]; rfl)
    have hpath : ((spell "#" (step :: rest)).toList.dropWhile (· = '#')).dropWhile (· = '/')
        = step.text.toList ++ rest.flatMap fun step => '/' :: step.text.toList := by
      rw [toList_spell, List.flatMap_cons, htext, show "#".toList = ['#'] from rfl]
      simp [hc]
    unfold segments
    simp only [hpath]
    rw [if_neg (by simp [htext]), splitChars_append_flatMap, List.map_append, List.map_flatMap,
      List.flatMap_cons]

/-- There is one segment for each step and one more for each slash in a step. -/
theorem length_segments (steps : List Step) :
    (steps.flatMap fun step => (splitChars '/' step.text.toList).map String.ofList).length
      = steps.length + (steps.flatMap fun step => step.text.toList).count '/' := by
  induction steps with
  | nil => rfl
  | cons step rest ih =>
    rw [List.flatMap_cons, List.length_append, ih, List.length_map, length_splitChars,
      List.length_cons, List.flatMap_cons, List.count_append]
    omega

/-- Verbatim steps are the segments of their path. -/
theorem flatMap_segments_of_verbatim {steps : List Step}
    (h : ∀ step ∈ steps, '/' ∉ step.text.toList) :
    (steps.flatMap fun step => (splitChars '/' step.text.toList).map String.ofList)
      = steps.map Step.text := by
  induction steps with
  | nil => rfl
  | cons step rest ih =>
    obtain ⟨hstep, hrest⟩ := List.forall_mem_cons.mp h
    rw [List.flatMap_cons, ih hrest, splitChars_of_notMem hstep, List.map_singleton,
      String.ofList_toList, List.map_cons, List.singleton_append]

end Pointer

theorem Step.verbatim_item (index : Nat) : (Step.item index).Verbatim := by
  have hne : ∀ c ∈ (toString index).toList, c ≠ '/' ∧ c ≠ '~' := by
    intro c hc
    have hdigit := Pointer.isDigit_of_mem_toString hc
    constructor
    · rintro rfl
      exact absurd hdigit (by decide)
    · rintro rfl
      exact absurd hdigit (by decide)
  exact ⟨fun hmem => (hne _ hmem).1 rfl, Pointer.unescape_of_notMem fun hmem => (hne _ hmem).2 rfl⟩

/-! ### Paths and the steps they were made of -/

namespace Json

variable {value part : Json} {steps : List Step}

/-- A pointer takes one step for each segment. -/
theorem length_of_descend? {segments : List String}
    (h : value.descend? segments = some (steps, part)) :
    steps.length = segments.length := by
  induction segments generalizing value steps with
  | nil =>
    cases h
    rfl
  | cons segment rest ih =>
    simp only [descend?, Option.bind_eq_some_iff, Option.map_eq_some_iff, Prod.mk.injEq] at h
    obtain ⟨step, -, below, -, found, hfound, rfl, rfl⟩ := h
    rw [List.length_cons, List.length_cons, ih hfound]

/-- A segment without slashes takes the step that it writes exactly when it is read as written. -/
theorem step?_text_iff {step : Step} (h : value.child? step = some part)
    (hslash : '/' ∉ step.text.toList) :
    value.step? step.text = some step ↔ step.Verbatim := by
  cases step with
  | item index =>
    cases value with
    | array items =>
      have hverbatim := Step.verbatim_item index
      rw [step?, hverbatim.2]
      show (Pointer.index? (toString index)).map Step.item = some (Step.item index) ↔ _
      rw [Pointer.index?_toString]
      exact ⟨fun _ => hverbatim, fun _ => rfl⟩
    | _ => cases h
  | member name =>
    cases value with
    | object fields =>
      rw [step?, Option.some.injEq, Step.member.injEq]
      exact ⟨fun hname => ⟨hslash, hname⟩, fun hverbatim => hverbatim.2⟩
    | _ => cases h

/-- Steps without slashes lead along themselves exactly when all are read as written. -/
theorem descend?_text_iff (h : value.at? steps = some part)
    (hslash : ∀ step ∈ steps, '/' ∉ step.text.toList) :
    value.descend? (steps.map Step.text) = some (steps, part) ↔ ∀ step ∈ steps, step.Verbatim := by
  induction steps generalizing value with
  | nil =>
    cases h
    exact ⟨fun _ _ hmem => absurd hmem List.not_mem_nil, fun _ => rfl⟩
  | cons step rest ih =>
    obtain ⟨below, hchild, hbelow⟩ := Option.bind_eq_some_iff.mp h
    obtain ⟨hstep, hrest⟩ := List.forall_mem_cons.mp hslash
    have hhead := step?_text_iff hchild hstep
    rw [List.forall_mem_cons, ← hhead, ← ih hbelow hrest, List.map_cons, descend?]
    constructor
    · intro hfound
      simp only [Option.bind_eq_some_iff, Option.map_eq_some_iff, Prod.mk.injEq,
        List.cons.injEq] at hfound
      obtain ⟨taken, htaken, reached, hreached, found, hfound, ⟨rfl, rfl⟩, rfl⟩ := hfound
      obtain rfl : below = reached := Option.some.inj (hchild.symm.trans hreached)
      exact ⟨htaken, hfound⟩
    · rintro ⟨htaken, hfound⟩
      rw [htaken, Option.bind_some, hchild, Option.bind_some, hfound]
      rfl

/-- **When a path leads along the steps that it was made of**: exactly when every one of them is
read as it is written. -/
theorem locate?_spell_iff (h : value.at? steps = some part)
    (hleading : Step.Leading steps) :
    value.locate? (Pointer.spell "#" steps) = some (steps, part) ↔
      ∀ step ∈ steps, step.Verbatim := by
  rw [locate?, Pointer.segments_spell hleading]
  by_cases hslash : ∀ step ∈ steps, '/' ∉ step.text.toList
  · rw [Pointer.flatMap_segments_of_verbatim hslash]
    exact descend?_text_iff h hslash
  · -- A slash in a step makes more segments than there are steps.
    constructor
    · intro hfound
      exfalso
      apply hslash
      have hlength := length_of_descend? hfound
      rw [Pointer.length_segments] at hlength
      have hnone : (steps.flatMap fun step => step.text.toList).count '/' = 0 := by omega
      intro step hmem hslash
      exact List.count_eq_zero.mp hnone (List.mem_flatMap.mpr ⟨step, hmem, hslash⟩)
    · intro hverbatim
      exact absurd (fun step hmem => (hverbatim step hmem).1) hslash

end Json

end RpcSchema
