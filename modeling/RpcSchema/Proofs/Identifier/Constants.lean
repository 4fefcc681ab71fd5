import Mathlib
import RpcSchema.Proofs.Identifier.Pascal
import RpcSchema.Proofs.Json.Pointer

/-!
# Names of constants

The constant for an enumerated value is made in five passes over the part behind the last colon.
They can be told at once by the words of that part: words stand between characters other than ASCII
letters and digits, a plus sign is read as a separator and the word `plus`, and a word also ends
where a lower-case letter is followed by an upper-case letter or a digit.  The constant is these
words in upper case with underscores between them, but for the rule that it must not be empty and
must not start with a digit.

So a constant is an identifier whatever the value is, and an identifier of this form is its own
constant.  Words hold no underscores, so they can be read off the constant: two values share a
constant exactly if they have the same words.

## Main definitions

* `IsConstantName` — the identifiers that constants are.
* `wordsOf`, `constantWords` — the words of a text, and those of the constant for a value.

## Main results

* `enumKey_eq_self_iff` — the constants are the identifiers that are their own constant.
* `enumKey_identifies` — a constant is an identifier, told by what is behind the last colon, and
  its own constant.
* `toList_enumKey_eq_intercalate`, `enumKey_eq_iff` — a constant is its words, and values share it
  exactly if they share these.
-/

namespace RpcSchema

/-! ### Pieces between separators -/

section Pieces

variable {separator : Char} {cs : List Char}

theorem lastPiece_of_notMem (h : separator ∉ cs) : lastPiece separator cs = cs := by
  rw [lastPiece, splitChars_of_notMem h, List.getLast?_singleton, Option.getD_some]

/-- What stands before a separator does not belong to the last piece. -/
theorem lastPiece_append (separator : Char) (cs rest : List Char) :
    lastPiece separator (cs ++ separator :: rest) = lastPiece separator rest := by
  rw [lastPiece, lastPiece, splitChars_append,
    List.getLast?_append_of_ne_nil _ (splitChars_ne_nil separator rest)]

/-- Pieces without separators are read back from the text that they make with separators between
them. -/
theorem splitChars_intercalate {pieces : List (List Char)} (hne : pieces ≠ [])
    (h : ∀ piece ∈ pieces, separator ∉ piece) :
    splitChars separator ([separator].intercalate pieces) = pieces := by
  induction pieces with
  | nil => exact absurd rfl hne
  | cons piece rest ih =>
    obtain ⟨hpiece, hrest⟩ := List.forall_mem_cons.mp h
    cases rest with
    | nil => rw [List.intercalate_singleton, splitChars_of_notMem hpiece]
    | cons other others =>
      rw [List.intercalate_cons_cons, List.append_assoc, List.singleton_append, splitChars_append,
        splitChars_of_notMem hpiece, ih (List.cons_ne_nil _ _) hrest, List.singleton_append]

end Pieces

/-! ### Identifiers -/

/-- ASCII capitals, digits and the underscore. -/
def IsConstantChar (c : Char) : Prop := c.isUpper = true ∨ c.isDigit = true ∨ c = '_'

/-- An identifier in upper case: it is not empty, has ASCII capitals, digits and underscores only,
and does not start with a digit. -/
structure IsConstantName (name : String) : Prop where
  nonempty : name.toList ≠ []
  chars : ∀ c ∈ name.toList, IsConstantChar c
  start : ∀ c, name.toList.head? = some c → c.isDigit = false

instance (c : Char) : Decidable (IsConstantChar c) :=
  inferInstanceAs (Decidable (_ ∨ _ ∨ _))

/-- The last pass leaves no other characters than those of constants. -/
theorem isConstantChar_constantChar (c : Char) : IsConstantChar (constantChar c) := by
  unfold constantChar IsConstantChar
  by_cases halpha : c.isAlpha = true
  · simp [Char.isAlphanum, halpha]
  · by_cases hdigit : c.isDigit = true
    · have hlower := isLower_eq_false_of_isDigit hdigit
      simp [Char.isAlphanum, hdigit, Char.toUpper_eq_of_not_isLower, hlower]
    · simp [Char.isAlphanum, halpha, hdigit]

namespace IsConstantChar

variable {c d : Char}

theorem isLower_eq_false (h : IsConstantChar c) : c.isLower = false := by
  rcases h with h | h | rfl
  · simpa using Char.not_isLower_of_isUpper h
  · exact isLower_eq_false_of_isDigit h
  · rfl

theorem ne (h : IsConstantChar c) (hd : ¬IsConstantChar d) : c ≠ d := by
  rintro rfl
  exact hd h

/-- The last pass keeps the characters of constants. -/
theorem constantChar_eq (h : IsConstantChar c) : constantChar c = c := by
  have hupper : c.toUpper = c := Char.toUpper_eq_of_not_isLower (by simp [h.isLower_eq_false])
  rcases h with h | h | rfl
  · rw [constantChar, if_pos (by simp [Char.isAlphanum, Char.isAlpha, h]), hupper]
  · rw [constantChar, if_pos (by simp [Char.isAlphanum, h]), hupper]
  · rfl

theorem not_isWordBreak (h : IsConstantChar c) : isWordBreak c = false := by
  have hdot : c ≠ '.' := h.ne (by decide)
  have hdash : c ≠ '-' := h.ne (by decide)
  have hslash : c ≠ '/' := h.ne (by decide)
  have hsemicolon : c ≠ ';' := h.ne (by decide)
  simp [isWordBreak, hdot, hdash, hslash, hsemicolon]

end IsConstantChar

/-! ### The passes -/

/-- Plus signs are spelled out. -/
def spellPlus (cs : List Char) : List Char :=
  cs.flatMap fun c => if c = '+' then ['_', 'p', 'l', 'u', 's'] else [c]

/-- A separator becomes an underscore. -/
def separate (c : Char) : Char := if isWordBreak c then '_' else c

/-- An identifier is not empty, and has a letter before a digit at its front. -/
def identifierOf : List Char → List Char
  | [] => ['E', 'M', 'P', 'T', 'Y']
  | c :: rest => if c.isDigit then 'V' :: c :: rest else c :: rest

theorem enumKeyChars_eq (value : List Char) :
    enumKeyChars value
      = identifierOf ((breakCamel ((spellPlus value).map separate)).map constantChar) := by
  unfold enumKeyChars
  rw [replaceAll_singleton]
  rfl

theorem toList_enumKey (value : String) :
    (enumKey value).toList = enumKeyChars (lastPiece ':' value.toList) :=
  String.toList_ofList

/-- Camel case is broken up behind lower-case letters only. -/
theorem breakCamel_of_forall {cs : List Char} (h : ∀ c ∈ cs, c.isLower = false) :
    breakCamel cs = cs := by
  induction cs with
  | nil => rfl
  | cons c rest ih =>
    obtain ⟨hc, hrest⟩ := List.forall_mem_cons.mp h
    cases rest with
    | nil => rfl
    | cons d rest => rw [breakCamel, hc, Bool.false_and, if_neg Bool.false_ne_true, ih hrest]

/-! ### Constants are identifiers -/

theorem isConstantName_ofList {c : Char} {rest : List Char}
    (h : ∀ d ∈ c :: rest, IsConstantChar d) (hstart : c.isDigit = false) :
    IsConstantName (String.ofList (c :: rest)) where
  nonempty := by simp
  chars d hd := h d (by rwa [String.toList_ofList] at hd)
  start d hd := by
    rw [String.toList_ofList, List.head?_cons, Option.some.injEq] at hd
    rwa [← hd]

/-- The front of a text of such characters is all that has to be seen to. -/
theorem isConstantName_identifierOf {cs : List Char} (h : ∀ c ∈ cs, IsConstantChar c) :
    IsConstantName (String.ofList (identifierOf cs)) := by
  cases cs with
  | nil => exact isConstantName_ofList (by simp [IsConstantChar]) (by decide)
  | cons c rest =>
    rw [identifierOf]
    by_cases hdigit : c.isDigit = true
    · rw [if_pos hdigit]
      exact isConstantName_ofList (List.forall_mem_cons.mpr ⟨by decide, h⟩) (by decide)
    · rw [if_neg hdigit]
      exact isConstantName_ofList h (by simpa using hdigit)

/-- **A constant is an identifier**, whatever characters the value has. -/
theorem isConstantName_enumKey (value : String) : IsConstantName (enumKey value) := by
  unfold enumKey
  rw [enumKeyChars_eq]
  refine isConstantName_identifierOf fun c hc => ?_
  obtain ⟨d, -, rfl⟩ := List.mem_map.mp hc
  exact isConstantChar_constantChar d

/-- **An identifier is its own constant**: no pass finds anything to rewrite. -/
theorem IsConstantName.enumKey_eq {name : String} (h : IsConstantName name) :
    enumKey name = name := by
  apply String.toList_injective
  have hcolon : ':' ∉ name.toList := fun hmem => absurd (h.chars _ hmem) (by decide)
  rw [toList_enumKey, lastPiece_of_notMem hcolon, enumKeyChars_eq]
  have hspell : spellPlus name.toList = name.toList := by
    unfold spellPlus
    rw [List.flatMap_congr (g := List.singleton) fun c hc => ?_]
    · exact List.flatMap_singleton' _
    · exact if_neg ((h.chars c hc).ne (by decide))
  have hseparate : name.toList.map separate = name.toList := by
    refine (List.map_congr_left fun c hc => ?_).trans (List.map_id _)
    rw [separate, (h.chars c hc).not_isWordBreak, if_neg Bool.false_ne_true, id]
  have hconstant : name.toList.map constantChar = name.toList :=
    (List.map_congr_left fun c hc => (h.chars c hc).constantChar_eq).trans (List.map_id _)
  rw [hspell, hseparate, breakCamel_of_forall fun c hc => (h.chars c hc).isLower_eq_false,
    hconstant]
  cases hname : name.toList with
  | nil => exact absurd hname h.nonempty
  | cons c rest =>
    have hstart : c.isDigit = false := h.start c (by rw [hname, List.head?_cons])
    rw [identifierOf, hstart, if_neg Bool.false_ne_true]

/-- **The constants are the identifiers**, each of which is its own. -/
theorem enumKey_eq_self_iff {name : String} : enumKey name = name ↔ IsConstantName name :=
  ⟨fun h => h ▸ isConstantName_enumKey name, IsConstantName.enumKey_eq⟩

/-- What stands before a colon does not matter. -/
theorem enumKey_append (before value : String) :
    enumKey (before ++ ":" ++ value) = enumKey value := by
  have hpiece : lastPiece ':' (before ++ ":" ++ value).toList = lastPiece ':' value.toList := by
    rw [String.toList_append, String.toList_append, show ":".toList = [':'] from rfl,
      List.append_assoc, List.singleton_append, lastPiece_append]
  unfold enumKey
  rw [hpiece]

/-- **Constants for enumerated values.**  For every value the constant is an identifier in upper
case; it is told by what stands behind the last colon; and it is its own constant. -/
theorem enumKey_identifies (value : String) :
    IsConstantName (enumKey value) ∧
      (∀ before, enumKey (before ++ ":" ++ value) = enumKey value) ∧
      enumKey (enumKey value) = enumKey value := by
  have hname := isConstantName_enumKey value
  exact ⟨hname, fun before => enumKey_append before value, hname.enumKey_eq⟩

example : enumKey "urn:foo.Bar-Baz+1.0" = "FOO_BAR_BAZ_PLUS_1_0" := by decide

/-! ### Words -/

/-- A word ends between a lower-case letter and an upper-case letter or digit. -/
def endsWord (c d : Char) : Bool := c.isLower && (d.isUpper || d.isDigit)

/-- The words of a text, at least one, which may be empty: they stand between characters other than
ASCII letters and digits, and end in camel case. -/
def wordsOf : List Char → List (List Char)
  | [] => [[]]
  | c :: rest =>
    if c.isAlphanum then
      match wordsOf rest with
      | (d :: word) :: words =>
        if endsWord c d then [c] :: (d :: word) :: words else (c :: d :: word) :: words
      | [] :: words => [c] :: words
      | [] => [[c]]
    else [] :: wordsOf rest

/-- A first word that could not be the front of an identifier is mended. -/
def mendFront : List (List Char) → List (List Char)
  | [[]] => [['E', 'M', 'P', 'T', 'Y']]
  | (c :: word) :: words =>
    if c.isDigit then ('V' :: c :: word) :: words else (c :: word) :: words
  | words => words

/-- The words of the constant for a value: those of what is behind the last colon, plus signs
spelled out, in upper case. -/
def constantWords (value : String) : List (List Char) :=
  mendFront ((wordsOf (spellPlus (lastPiece ':' value.toList))).map (List.map Char.toUpper))

theorem wordsOf_ne_nil (cs : List Char) : wordsOf cs ≠ [] := by
  cases cs with
  | nil => simp [wordsOf]
  | cons c rest =>
    unfold wordsOf
    split
    · split
      · split <;> simp
      · simp
      · simp
    · simp

theorem wordsOf_of_break {c : Char} (hc : c.isAlphanum = false) (rest : List Char) :
    wordsOf (c :: rest) = [] :: wordsOf rest := by
  rw [wordsOf, if_neg (by simp [hc])]

/-- A letter or digit starts the first word. -/
theorem exists_wordsOf_cons {c : Char} (hc : c.isAlphanum = true) (rest : List Char) :
    ∃ word words, wordsOf (c :: rest) = (c :: word) :: words := by
  rw [wordsOf, if_pos hc]
  split
  · split
    · exact ⟨_, _, rfl⟩
    · exact ⟨_, _, rfl⟩
  · exact ⟨_, _, rfl⟩
  · exact ⟨_, _, rfl⟩

/-- The words behind a letter or digit that stands before another one. -/
theorem wordsOf_cons_cons {c d : Char} (hc : c.isAlphanum = true) {rest word : List Char}
    {words : List (List Char)} (h : wordsOf (d :: rest) = (d :: word) :: words) :
    wordsOf (c :: d :: rest)
      = if endsWord c d then [c] :: (d :: word) :: words else (c :: d :: word) :: words := by
  rw [wordsOf, if_pos hc, h]

/-- The words behind a letter or digit that stands by itself. -/
theorem wordsOf_cons_of_break {c : Char} (hc : c.isAlphanum = true) {rest : List Char}
    {words : List (List Char)} (h : wordsOf rest = [] :: words) :
    wordsOf (c :: rest) = [c] :: words := by
  rw [wordsOf, if_pos hc, h]

/-- Separators and underscores bound words alike. -/
theorem wordsOf_map_separate (cs : List Char) : wordsOf (cs.map separate) = wordsOf cs := by
  induction cs with
  | nil => rfl
  | cons c rest ih =>
    rw [List.map_cons]
    by_cases hbreak : isWordBreak c = true
    · have hc : c.isAlphanum = false := by
        simp only [isWordBreak, Bool.or_eq_true, decide_eq_true_eq] at hbreak
        rcases hbreak with ((rfl | rfl) | rfl) | rfl <;> rfl
      have hseparated : separate c = '_' := if_pos hbreak
      rw [hseparated, wordsOf_of_break hc, wordsOf_of_break rfl, ih]
    · have hkept : separate c = c := if_neg hbreak
      rw [hkept, wordsOf, wordsOf, ih]

/-! ### A constant is its words -/

section Joined

variable {c d : Char} {rest word : List Char} {words : List (List Char)}

/-- The first word is what stands before the first separator. -/
theorem intercalate_cons_head (separator c : Char) (word : List Char) (words : List (List Char)) :
    [separator].intercalate ((c :: word) :: words)
      = c :: [separator].intercalate (word :: words) := by
  cases words with
  | nil => rw [List.intercalate_singleton, List.intercalate_singleton]
  | cons other others =>
    rw [List.intercalate_cons_cons, List.intercalate_cons_cons, List.cons_append, List.cons_append]

theorem endsWord_eq_false_left (hc : c.isAlphanum = false) (d : Char) : endsWord c d = false := by
  have hlower : c.isLower = false := by
    simp only [Char.isAlphanum, Char.isAlpha, Bool.or_eq_false_iff] at hc
    exact hc.1.2
  rw [endsWord, hlower, Bool.false_and]

theorem endsWord_eq_false_right (c : Char) (hd : d.isAlphanum = false) : endsWord c d = false := by
  simp only [Char.isAlphanum, Char.isAlpha, Bool.or_eq_false_iff] at hd
  rw [endsWord, hd.1.1, hd.2, Bool.or_self, Bool.and_false]

theorem breakCamel_cons_cons (c d : Char) (rest : List Char) :
    breakCamel (c :: d :: rest)
      = if endsWord c d then c :: '_' :: breakCamel (d :: rest)
        else c :: breakCamel (d :: rest) := rfl

/-- Where a word ends at a character, camel case is not broken up there. -/
theorem breakCamel_cons_of_break (hc : c.isAlphanum = false) (rest : List Char) :
    breakCamel (c :: rest) = c :: breakCamel rest := by
  cases rest with
  | nil => rfl
  | cons d rest =>
    rw [breakCamel_cons_cons, endsWord_eq_false_left hc, if_neg Bool.false_ne_true]

/-- **What camel case is broken up to, in the characters of constants, is the words**, by induction
on the text: a character belongs to the first word of the rest, unless a word ends there. -/
theorem map_constantChar_breakCamel (cs : List Char) :
    (breakCamel cs).map constantChar
      = ['_'].intercalate ((wordsOf cs).map (List.map Char.toUpper)) := by
  induction cs with
  | nil => rfl
  | cons c rest ih =>
    by_cases hc : c.isAlphanum = true
    · have hupper : constantChar c = c.toUpper := if_pos hc
      cases rest with
      | nil =>
        have hword : wordsOf [c] = [[c]] := wordsOf_cons_of_break hc rfl
        rw [hword]
        simp [breakCamel, hupper]
      | cons d rest =>
        by_cases hd : d.isAlphanum = true
        · obtain ⟨word, words, hwords⟩ := exists_wordsOf_cons hd rest
          rw [breakCamel_cons_cons, wordsOf_cons_cons hc hwords]
          rw [hwords, List.map_cons] at ih
          by_cases hends : endsWord c d = true
          · -- The word ends before `d`, and an underscore comes in between.
            have hunderscore : constantChar '_' = '_' := rfl
            rw [if_pos hends, if_pos hends, List.map_cons, List.map_cons, ih, hupper, hunderscore]
            simp only [List.map_cons, List.map_nil, List.intercalate_cons_cons, List.cons_append,
              List.nil_append]
          · rw [if_neg hends, if_neg hends, List.map_cons, ih, hupper]
            simp only [List.map_cons, intercalate_cons_head]
        · -- The rest starts with the end of the word that `c` is.
          have hbreak : d.isAlphanum = false := by simpa using hd
          rw [wordsOf_of_break hbreak, List.map_cons] at ih
          rw [breakCamel_cons_cons, endsWord_eq_false_right c hbreak, if_neg Bool.false_ne_true,
            wordsOf_cons_of_break hc (wordsOf_of_break hbreak rest), List.map_cons, ih, hupper]
          simp only [List.map_cons, List.map_nil, intercalate_cons_head]
    · have hbreak : c.isAlphanum = false := by simpa using hc
      have hunderscore : constantChar c = '_' := if_neg hc
      rw [breakCamel_cons_of_break hbreak, wordsOf_of_break hbreak, List.map_cons, ih, hunderscore,
        List.map_cons, List.map_nil]
      cases hwords : wordsOf rest with
      | nil => exact absurd hwords (wordsOf_ne_nil rest)
      | cons word words =>
        rw [List.map_cons, List.intercalate_cons_cons]
        rfl

/-- The front of an identifier is that of its first word. -/
theorem identifierOf_intercalate (hne : words ≠ []) :
    identifierOf (['_'].intercalate words) = ['_'].intercalate (mendFront words) := by
  cases words with
  | nil => exact absurd rfl hne
  | cons word words =>
    cases word with
    | nil =>
      cases words with
      | nil => rfl
      | cons other others => rfl
    | cons c word =>
      rw [intercalate_cons_head, identifierOf, mendFront]
      by_cases hdigit : c.isDigit = true
      · rw [if_pos hdigit, if_pos hdigit, intercalate_cons_head, intercalate_cons_head]
      · rw [if_neg hdigit, if_neg hdigit, intercalate_cons_head]

/-- **A constant is its words**, with underscores between them. -/
theorem toList_enumKey_eq_intercalate (value : String) :
    (enumKey value).toList = ['_'].intercalate (constantWords value) := by
  rw [toList_enumKey, enumKeyChars_eq, map_constantChar_breakCamel, wordsOf_map_separate,
    identifierOf_intercalate (by simp [wordsOf_ne_nil]), constantWords]

/-! ### Words are read off constants -/

/-- Words are of letters and digits. -/
theorem isAlphanum_of_mem_wordsOf {cs : List Char} :
    ∀ word ∈ wordsOf cs, ∀ c ∈ word, c.isAlphanum = true := by
  induction cs with
  | nil => simp [wordsOf]
  | cons c rest ih =>
    by_cases hc : c.isAlphanum = true
    · unfold wordsOf
      rw [if_pos hc]
      split
      · next d word words hwords =>
        rw [hwords] at ih
        split
        · exact List.forall_mem_cons.mpr ⟨by simpa using hc, ih⟩
        · obtain ⟨hword, hrest⟩ := List.forall_mem_cons.mp ih
          exact List.forall_mem_cons.mpr ⟨List.forall_mem_cons.mpr ⟨hc, hword⟩, hrest⟩
      · next words hwords =>
        rw [hwords] at ih
        obtain ⟨-, hrest⟩ := List.forall_mem_cons.mp ih
        exact List.forall_mem_cons.mpr ⟨by simpa using hc, hrest⟩
      · simpa using hc
    · rw [wordsOf_of_break (by simpa using hc)]
      exact List.forall_mem_cons.mpr ⟨by simp, ih⟩

/-- Mending the front puts in letters only. -/
theorem mendFront_of_forall {p : Char → Prop} (hletters : ∀ c ∈ ['E', 'M', 'P', 'T', 'Y', 'V'], p c)
    (h : ∀ word ∈ words, ∀ c ∈ word, p c) : ∀ word ∈ mendFront words, ∀ c ∈ word, p c := by
  unfold mendFront
  split
  · intro word hword c hc
    obtain rfl := List.mem_singleton.mp hword
    exact hletters c (List.mem_append_left ['V'] hc)
  · split
    · obtain ⟨hword, hrest⟩ := List.forall_mem_cons.mp h
      exact List.forall_mem_cons.mpr
        ⟨List.forall_mem_cons.mpr ⟨hletters 'V' (by simp), hword⟩, hrest⟩
    · exact h
  · exact h

theorem mendFront_ne_nil (hne : words ≠ []) : mendFront words ≠ [] := by
  unfold mendFront
  split
  · exact List.cons_ne_nil _ _
  · split <;> exact List.cons_ne_nil _ _
  · exact hne

theorem constantWords_ne_nil (value : String) : constantWords value ≠ [] :=
  mendFront_ne_nil (by simp [wordsOf_ne_nil])

/-- No word of a constant holds an underscore. -/
theorem underscore_notMem_constantWords (value : String) :
    ∀ word ∈ constantWords value, '_' ∉ word := by
  have hwords : ∀ word ∈ constantWords value, ∀ c ∈ word, c.isAlphanum = true := by
    refine mendFront_of_forall (by simp) fun word hword c hc => ?_
    obtain ⟨origin, horigin, rfl⟩ := List.mem_map.mp hword
    obtain ⟨d, hd, rfl⟩ := List.mem_map.mp hc
    exact isAlphanum_toUpper (isAlphanum_of_mem_wordsOf origin horigin d hd)
  intro word hword hmem
  exact absurd (hwords word hword '_' hmem) (by decide)

/-- **Values share a constant exactly if the constants have the same words.** -/
theorem enumKey_eq_iff {value other : String} :
    enumKey value = enumKey other ↔ constantWords value = constantWords other := by
  constructor
  · intro h
    have htext : ['_'].intercalate (constantWords value)
        = ['_'].intercalate (constantWords other) := by
      rw [← toList_enumKey_eq_intercalate, ← toList_enumKey_eq_intercalate, h]
    rw [← splitChars_intercalate (constantWords_ne_nil value)
      (underscore_notMem_constantWords value), htext,
      splitChars_intercalate (constantWords_ne_nil other) (underscore_notMem_constantWords other)]
  · intro h
    apply String.toList_injective
    rw [toList_enumKey_eq_intercalate, toList_enumKey_eq_intercalate, h]

end Joined

end RpcSchema
