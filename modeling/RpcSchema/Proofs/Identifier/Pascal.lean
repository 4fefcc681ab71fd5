import RpcSchema.Identifier
import RpcSchema.Proofs.Json.Spelling

/-!
# Names in PascalCase

A name in PascalCase has ASCII letters and digits only and does not start with a lower-case letter.
It may be empty, for a text without letters and digits.  Making such a name is done word by word, so
that a text cut at a separator gives the names of its two parts, one after the other; and a name
that is in PascalCase already stays as it is, also behind another text.

Names in PascalCase written one after the other are in PascalCase again.  So nothing is rewritten
where a nested name is nested further, and it does not matter which two names are put together
first.

## Main definitions

* `IsPascalName` — the names in PascalCase.
* `capitalized` — a word with a capital in front.

## Main results

* `toList_pascal_eq_flatMap` — a name in PascalCase is the words of a text, capitalized.
* `pascal_eq_self_iff` — the names in PascalCase are their own.
* `pascal_append_separator` — a separator cuts a text in two.
* `IsPascalName.pascal_append` — a name in PascalCase stays as it is behind a text.
* `nestedName_assoc` — nested names can be put together in any way.
-/

namespace RpcSchema

/-- A name in PascalCase: it has ASCII letters and digits only, and does not start with a lower-case
letter. -/
structure IsPascalName (name : String) : Prop where
  chars : ∀ c ∈ name.toList, c.isAlphanum = true
  start : ∀ c, name.toList.head? = some c → c.isLower = false

/-! ### Characters -/

section Chars

variable {c : Char} {cs ds : List Char}

theorem isLower_iff_toNat : c.isLower = true ↔ 97 ≤ c.toNat ∧ c.toNat ≤ 122 := by
  change (decide (97 ≤ c.val) && decide (c.val ≤ 122)) = true ↔ _
  simp [UInt32.le_iff_toNat_le]

/-- The code points of ASCII letters and digits. -/
theorem isAlphanum_iff_toNat : c.isAlphanum = true ↔
    (65 ≤ c.toNat ∧ c.toNat ≤ 90) ∨ (97 ≤ c.toNat ∧ c.toNat ≤ 122) ∨
      (48 ≤ c.toNat ∧ c.toNat ≤ 57) := by
  change ((decide (65 ≤ c.val ∧ c.val ≤ 90) || c.isLower) || c.isDigit) = true ↔ _
  simp [UInt32.le_iff_toNat_le, isLower_iff_toNat, Char.isDigit_iff_toNat, or_assoc]

theorem isLower_eq_false_of_isDigit (hc : c.isDigit = true) : c.isLower = false := by
  have hrange : 48 ≤ c.toNat ∧ c.toNat ≤ 57 := Char.isDigit_iff_toNat.mp hc
  rw [Bool.eq_false_iff, ne_eq, isLower_iff_toNat]
  omega

/-- A lower-case letter becomes the capital 32 code points before it. -/
theorem toNat_toUpper (hc : c.isLower = true) : c.toUpper.toNat = c.toNat - 32 := by
  obtain ⟨hlow, hhigh⟩ := isLower_iff_toNat.mp hc
  have hupper : c.toUpper.val = c.val + (65 - 97) := by
    unfold Char.toUpper
    rw [dif_pos ⟨UInt32.le_iff_toNat_le.mpr hlow, UInt32.le_iff_toNat_le.mpr hhigh⟩]
    rfl
  rw [← Char.toNat_val, hupper, UInt32.toNat_add]
  simp
  omega

theorem toUpper_of_isLower_eq_false (hc : c.isLower = false) : c.toUpper = c := by
  unfold Char.toUpper
  rw [dif_neg]
  rw [Bool.eq_false_iff, ne_eq, isLower_iff_toNat] at hc
  simpa [UInt32.le_iff_toNat_le] using hc

/-- A letter in upper case is a letter, and digits stay. -/
theorem isAlphanum_toUpper (hc : c.isAlphanum = true) : c.toUpper.isAlphanum = true := by
  cases hlower : c.isLower with
  | false => rwa [toUpper_of_isLower_eq_false hlower]
  | true =>
    have hrange := isLower_iff_toNat.mp hlower
    rw [isAlphanum_iff_toNat, toNat_toUpper hlower]
    omega

theorem isLower_toUpper (c : Char) : c.toUpper.isLower = false := by
  cases hlower : c.isLower with
  | false => rwa [toUpper_of_isLower_eq_false hlower]
  | true =>
    have hrange := isLower_iff_toNat.mp hlower
    rw [Bool.eq_false_iff, ne_eq, isLower_iff_toNat, toNat_toUpper hlower]
    omega

/-! ### What is left of a text -/

theorem pascalChars_cons_of_word (hc : c.isAlphanum = true) (atStart : Bool) (cs : List Char) :
    pascalChars atStart (c :: cs) = (if atStart then c.toUpper else c) :: pascalChars false cs := by
  rw [pascalChars, isWordChar, if_pos hc]

theorem pascalChars_cons_of_break (hc : c.isAlphanum = false) (atStart : Bool) (cs : List Char) :
    pascalChars atStart (c :: cs) = pascalChars true cs := by
  rw [pascalChars, isWordChar, hc, if_neg Bool.false_ne_true]

/-- Nothing but letters and digits is left. -/
theorem isAlphanum_of_mem_pascalChars {atStart : Bool} :
    ∀ d ∈ pascalChars atStart cs, d.isAlphanum = true := by
  induction cs generalizing atStart with
  | nil => simp [pascalChars]
  | cons c cs ih =>
    by_cases hc : c.isAlphanum = true
    · rw [pascalChars_cons_of_word hc]
      refine List.forall_mem_cons.mpr ⟨?_, ih⟩
      cases atStart with
      | true => exact isAlphanum_toUpper hc
      | false => exact hc
    · rw [pascalChars_cons_of_break (by simpa using hc)]
      exact ih

/-- The first letter that is left starts a word. -/
theorem isLower_head?_pascalChars (h : (pascalChars true cs).head? = some c) :
    c.isLower = false := by
  induction cs with
  | nil => cases h
  | cons d cs ih =>
    by_cases hd : d.isAlphanum = true
    · rw [pascalChars_cons_of_word hd, List.head?_cons, if_pos rfl] at h
      exact Option.some.inj h ▸ isLower_toUpper d
    · rw [pascalChars_cons_of_break (by simpa using hd)] at h
      exact ih h

/-- Within a word nothing is rewritten. -/
theorem pascalChars_false_of_forall (h : ∀ d ∈ cs, d.isAlphanum = true) :
    pascalChars false cs = cs := by
  induction cs with
  | nil => rfl
  | cons c cs ih =>
    obtain ⟨hc, hrest⟩ := List.forall_mem_cons.mp h
    rw [pascalChars_cons_of_word hc, if_neg Bool.false_ne_true, ih hrest]

/-- Letters and digits that do not start in lower case are kept behind every text. -/
theorem pascalChars_append (hchars : ∀ d ∈ ds, d.isAlphanum = true)
    (hstart : ∀ d, ds.head? = some d → d.isLower = false) (atStart : Bool) :
    pascalChars atStart (cs ++ ds) = pascalChars atStart cs ++ ds := by
  induction cs generalizing atStart with
  | nil =>
    cases ds with
    | nil => rfl
    | cons d ds =>
      obtain ⟨hd, hrest⟩ := List.forall_mem_cons.mp hchars
      have hupper : d.toUpper = d := toUpper_of_isLower_eq_false (hstart d List.head?_cons)
      rw [List.nil_append, pascalChars_cons_of_word hd, hupper, ite_self,
        pascalChars_false_of_forall hrest]
      rfl
  | cons c cs ih =>
    rw [List.cons_append]
    by_cases hc : c.isAlphanum = true
    · rw [pascalChars_cons_of_word hc, pascalChars_cons_of_word hc, ih, List.cons_append]
    · have hbreak : c.isAlphanum = false := by simpa using hc
      rw [pascalChars_cons_of_break hbreak, pascalChars_cons_of_break hbreak, ih]

/-! ### Words -/

/-- A word with its first character in upper case. -/
def capitalized : List Char → List Char
  | [] => []
  | c :: word => c.toUpper :: word

/-- Words stand between characters other than letters and digits.  All of them but the first are
capitalized, and the first one is if the text starts with it.  By induction on the text: a character
belongs to the first word of the rest, or ends an empty one. -/
theorem pascalChars_eq (atStart : Bool) {first : List Char} {words : List (List Char)}
    (h : cs.splitOnP (fun d => !d.isAlphanum) = first :: words) :
    pascalChars atStart cs
      = (if atStart then capitalized first else first) ++ words.flatMap capitalized := by
  induction cs generalizing atStart first words with
  | nil =>
    obtain ⟨rfl, rfl⟩ := List.cons.inj h
    cases atStart <;> rfl
  | cons c cs ih =>
    obtain ⟨next, rest, hrest⟩ := List.exists_cons_of_ne_nil (List.splitOnP_ne_nil _ cs)
    rw [List.splitOnP_cons_eq_if_modifyHead, hrest] at h
    by_cases hc : c.isAlphanum = true
    -- The character goes in front of the first word, whose own first character stays as it is.
    · simp only [hc, Bool.not_true, Bool.false_eq_true, if_false, List.modifyHead_cons] at h
      obtain ⟨rfl, rfl⟩ := List.cons.inj h
      rw [pascalChars_cons_of_word hc, ih false hrest]
      cases atStart <;> rfl
    · have hbreak : c.isAlphanum = false := by simpa using hc
      simp only [hbreak, Bool.not_false, if_true] at h
      obtain ⟨rfl, rfl⟩ := List.cons.inj h
      rw [pascalChars_cons_of_break hbreak, ih true hrest]
      cases atStart <;> rfl

end Chars

/-! ### Names -/

theorem toList_pascal (text : String) : (pascal text).toList = pascalChars true text.toList :=
  String.toList_ofList

/-- **A name in PascalCase is the words of a text**, each capitalized, one after the other. -/
theorem toList_pascal_eq_flatMap (text : String) : (pascal text).toList
    = (text.toList.splitOnP fun c => !c.isAlphanum).flatMap capitalized := by
  obtain ⟨first, words, h⟩ :=
    List.exists_cons_of_ne_nil (List.splitOnP_ne_nil (fun c => !c.isAlphanum) text.toList)
  rw [toList_pascal, pascalChars_eq true h, h, if_pos rfl, List.flatMap_cons]

/-- **Every text gives a name in PascalCase.** -/
theorem isPascalName_pascal (text : String) : IsPascalName (pascal text) where
  chars := by
    rw [toList_pascal]
    exact isAlphanum_of_mem_pascalChars
  start c hc := by
    rw [toList_pascal] at hc
    exact isLower_head?_pascalChars hc

/-- **A separator cuts a text in two**, and the names of its parts stand one after the other. -/
theorem pascal_append_separator (before after : String) {c : Char} (hc : c.isAlphanum = false) :
    pascal (before ++ String.singleton c ++ after) = pascal before ++ pascal after := by
  apply String.toList_injective
  have hbreak : (!c.isAlphanum) = true := by rw [hc, Bool.not_false]
  have hsplit := List.splitOnP_append_cons (p := fun d => !d.isAlphanum) before.toList after.toList
    hbreak
  simp only [String.toList_append, toList_pascal_eq_flatMap, String.toList_singleton,
    List.append_assoc, List.singleton_append, hsplit, List.flatMap_append]

/-- The digits of a number are a name in PascalCase. -/
theorem isPascalName_toString (index : Nat) : IsPascalName (toString index) where
  chars c hc := by
    have hdigit := Pointer.isDigit_of_mem_toString hc
    simp [Char.isAlphanum, hdigit]
  start c hc :=
    isLower_eq_false_of_isDigit (Pointer.isDigit_of_mem_toString (List.mem_of_head? hc))

namespace IsPascalName

variable {name other : String}

/-- **A name in PascalCase stays as it is behind a text.** -/
theorem pascal_append (h : IsPascalName name) (text : String) :
    pascal (text ++ name) = pascal text ++ name := by
  apply String.toList_injective
  rw [String.toList_append, toList_pascal, toList_pascal, String.toList_append,
    pascalChars_append h.chars h.start]

/-- A name in PascalCase is its own. -/
theorem pascal_eq (h : IsPascalName name) : pascal name = name := by
  have hempty := h.pascal_append ""
  rwa [String.empty_append, show pascal "" = "" from rfl, String.empty_append] at hempty

/-- Names in PascalCase make such a name one after the other. -/
theorem append (h : IsPascalName name) (h' : IsPascalName other) :
    IsPascalName (name ++ other) where
  chars := by
    rw [String.toList_append, List.forall_mem_append]
    exact ⟨h.chars, h'.chars⟩
  start c hc := by
    rw [String.toList_append] at hc
    cases hname : name.toList with
    | nil => exact h'.start c (by rwa [hname, List.nil_append] at hc)
    | cons d rest => exact h.start c (by rwa [hname] at hc ⊢)

end IsPascalName

/-- **The names in PascalCase are their own.** -/
theorem pascal_eq_self_iff {name : String} : pascal name = name ↔ IsPascalName name :=
  ⟨fun h => h ▸ isPascalName_pascal name, IsPascalName.pascal_eq⟩

/-! ### Nested names -/

theorem isPascalName_nestedName (parent child : String) :
    IsPascalName (nestedName parent child) :=
  (isPascalName_pascal parent).append (isPascalName_pascal child)

/-- Making a name of what is behind a name in PascalCase. -/
theorem nestedName_of_isPascalName {parent : String} (h : IsPascalName parent) (child : String) :
    nestedName parent child = parent ++ pascal child := by
  rw [nestedName, h.pascal_eq]

/-- **Nested names can be put together in any way.** -/
theorem nestedName_assoc (a b c : String) :
    nestedName (nestedName a b) c = nestedName a (nestedName b c) :=
  calc nestedName (nestedName a b) c
      = nestedName a b ++ pascal c := nestedName_of_isPascalName (isPascalName_nestedName a b) c
    _ = pascal a ++ nestedName b c := String.append_assoc
    _ = nestedName a (nestedName b c) :=
      congrArg (pascal a ++ ·) (isPascalName_nestedName b c).pascal_eq.symm

example : nestedName "settings" "closed_captions" = "SettingsClosedCaptions" := by decide

end RpcSchema
