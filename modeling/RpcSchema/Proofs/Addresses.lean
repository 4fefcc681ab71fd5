import RpcSchema.Proofs.Document
import RpcSchema.Proofs.Json.Spelling
import RpcSchema.Proofs.Store

/-!
# Addresses

The address of a part of a value is the pointer that leads there from the root: a number sign, and
then each step as a segment, with its escapes.  Whatever signs the names on the way have, the
address leads along the steps that it was made of.  There is one exception, which the form of
pointers brings with it: slashes at the front carry no meaning, so that an empty name cannot be the
first step.

The pointer that a document gives to a named schema is the address of that schema, and so a
reference of this form finds it.

## Main definitions

* `Pointer.address` — the pointer made of steps.

## Main results

* `Pointer.segments_address` — the segments of an address are the steps with their escapes.
* `Json.locate?_address` — an address leads along its steps.
* `Document.address_of_mem_named` — the pointer to a named schema is its address.
* `Store.navigate?_address_and_lookup_named` — so parts are found at their addresses, and named
  schemas at their pointers.
-/

namespace RpcSchema

/-- The pointer made of steps, each a segment with its escapes. -/
def Pointer.address (steps : List Step) : String :=
  steps.foldl (fun pointer step => Pointer.child pointer step.text) "#"

/-- A step with the escapes of its segment. -/
def Step.escaped : Step → Step
  | .member name => .member (Pointer.escape name)
  | .item index => .item index

namespace Pointer

/-- A name without slashes and tildes needs no escapes. -/
theorem escape_of_plain {name : String} (h : Plain name) : escape name = name := by
  obtain ⟨hslash, htilde⟩ := h
  have hchar : ∀ c ∈ name.toList, escapeChar c = [c] := by
    intro c hc
    rw [escapeChar, if_neg (ne_of_mem_of_not_mem hc htilde),
      if_neg (ne_of_mem_of_not_mem hc hslash)]
  rw [← String.toList_inj, toList_escape, List.flatMap_congr hchar]
  simp

theorem plain_toString (index : Nat) : Plain (toString index) := by
  have hdigit : ∀ c ∈ (toString index).toList, c.isDigit = true :=
    fun _ hc => isDigit_of_mem_toString hc
  exact ⟨fun hmem => absurd (hdigit _ hmem) (by decide),
    fun hmem => absurd (hdigit _ hmem) (by decide)⟩

theorem escape_text (step : Step) : escape step.text = step.escaped.text := by
  cases step with
  | member name => rfl
  | item index => exact escape_of_plain (plain_toString index)

/-- Only an empty name is written as an empty segment. -/
theorem escape_eq_empty_iff {name : String} : escape name = "" ↔ name = "" := by
  constructor
  · intro h
    rw [← unescape_escape name, h]
    rfl
  · rintro rfl
    rfl

theorem address_eq_spell (steps : List Step) : address steps = spell "#" (steps.map .escaped) := by
  simp only [address, spell, child, List.foldl_map, escape_text]

/-- **The segments of an address** are its steps with their escapes. -/
theorem segments_address {steps : List Step} (h : steps.head? ≠ some (.member "")) :
    segments (address steps) = steps.map fun step => escape step.text := by
  have hslash : ∀ step ∈ steps.map Step.escaped, '/' ∉ step.text.toList := by
    intro step hstep
    obtain ⟨step, -, rfl⟩ := List.mem_map.mp hstep
    rw [← escape_text]
    exact slash_notMem_escape step.text
  have hleading : Step.Leading (steps.map .escaped) := by
    intro step hstep
    have hmem := List.mem_of_mem_head? hstep
    refine ⟨?_, fun hhead => hslash step hmem (List.mem_of_mem_head? hhead)⟩
    rw [List.head?_map, Option.mem_def, Option.map_eq_some_iff] at hstep
    obtain ⟨step, hfirst, rfl⟩ := hstep
    cases step with
    | member name =>
      intro hempty
      have hname := escape_eq_empty_iff.mp (String.toList_eq_nil_iff.mp hempty)
      exact h (hfirst.trans (by rw [hname]))
    | item index =>
      rw [show (Step.item index).escaped.text = toString index from rfl, toList_toString_index]
      exact Nat.toDigits_ne_nil
  rw [address_eq_spell, segments_spell hleading, flatMap_segments_of_verbatim hslash,
    List.map_map]
  simp only [Function.comp_def, escape_text]

end Pointer

namespace Json

variable {value part : Json} {steps : List Step}

/-- A segment with its escapes takes the step that it was made of. -/
theorem step?_escape {step : Step} (h : value.child? step = some part) :
    value.step? (Pointer.escape step.text) = some step := by
  cases step with
  | member name =>
    cases value with
    | object fields =>
      rw [step?, Pointer.unescape_escape]
      rfl
    | _ => cases h
  | item index =>
    cases value with
    | array items =>
      rw [step?, Pointer.unescape_escape]
      show (Pointer.index? (toString index)).map Step.item = some (.item index)
      rw [Pointer.index?_toString]
      rfl
    | _ => cases h

theorem descend?_escape (h : value.at? steps = some part) :
    value.descend? (steps.map fun step => Pointer.escape step.text) = some (steps, part) := by
  induction steps generalizing value with
  | nil =>
    obtain rfl := Option.some.inj h
    rfl
  | cons step rest ih =>
    obtain ⟨below, hchild, hbelow⟩ := Option.bind_eq_some_iff.mp h
    rw [List.map_cons, descend?, step?_escape hchild, Option.bind_some, hchild, Option.bind_some,
      ih hbelow]
    rfl

/-- **An address leads along its steps.** -/
theorem locate?_address (h : value.at? steps = some part)
    (hfirst : steps.head? ≠ some (.member "")) :
    value.locate? (Pointer.address steps) = some (steps, part) := by
  rw [locate?, Pointer.segments_address hfirst]
  exact descend?_escape h

/-- Segments that are no indices lead to members only. -/
theorem at?_of_descend?_names {names : List String}
    (hnames : ∀ name ∈ names, Pointer.unescape name = name ∧ Pointer.index? name = none)
    (h : value.descend? names = some (steps, part)) :
    value.at? (names.map .member) = some part := by
  induction names generalizing value steps with
  | nil =>
    cases h
    rfl
  | cons name names ih =>
    obtain ⟨⟨hname, hindex⟩, hrest⟩ := List.forall_mem_cons.mp hnames
    simp only [descend?, Option.bind_eq_some_iff, Option.map_eq_some_iff, Prod.mk.injEq] at h
    obtain ⟨step, hstep, below, hchild, found, hfound, -, rfl⟩ := h
    cases value with
    | object fields =>
      rw [step?, hname, Option.some.injEq] at hstep
      subst hstep
      rw [List.map_cons, at?_cons, hchild, Option.bind_some]
      exact ih hrest hfound
    | array items =>
      rw [step?, hname, hindex] at hstep
      cases hstep
    | _ => cases hstep

end Json

/-! ### Named schemas -/

namespace Document

variable {document : Document} {entry : NamedNode}

/-- The places of named schemas are addresses. -/
theorem containerPointers_eq :
    containerPointers = containers.map fun names => Pointer.address (names.map .member) := by
  decide

/-- **The pointer to a named schema is its address.** -/
theorem address_of_mem_named (hnames : document.root.DistinctNames) (h : entry ∈ document.named) :
    ∃ names ∈ containers,
      entry.pointer = Pointer.address (names.map .member ++ [.member entry.name]) ∧
        document.root.at? (names.map .member ++ [.member entry.name]) = some entry.node := by
  obtain ⟨container, hcontainer, fields, hfields, hmember, hpointer⟩ := mem_named_iff.mp h
  rw [containerPointers_eq, List.mem_map] at hcontainer
  obtain ⟨names, hmem, rfl⟩ := hcontainer
  obtain ⟨⟨steps, found⟩, hlocate, rfl⟩ := Option.map_eq_some_iff.mp hfields
  have hplain : ∀ names ∈ containers,
      Pointer.segments (Pointer.address (names.map .member)) = names ∧
        ∀ name ∈ names, Pointer.unescape name = name ∧ Pointer.index? name = none := by decide
  obtain ⟨hsegments, hsteps⟩ := hplain names hmem
  have hkeys := (Json.everyObject_object_iff.mp (hnames.of_locate? hlocate)).1
  have hat : document.root.at? (names.map .member) = some (.object fields) := by
    rw [Json.locate?, hsegments] at hlocate
    exact Json.at?_of_descend?_names hsteps hlocate
  refine ⟨names, hmem, ?_, ?_⟩
  · rw [hpointer, Pointer.address, Pointer.address, List.foldl_append]
    rfl
  · rw [Json.at?_append, hat, Option.bind_some, Json.at?_member_nil,
      Fields.get?_of_mem hkeys hmember]

/-- The pointer for a name is that of the first named schema that goes by it. -/
theorem pointerOf?_eq_some_iff {title pointer : String} :
    document.pointerOf? title = some pointer ↔
      ∃ before entry after, document.named = before ++ entry :: after ∧
        entry.pointer = pointer ∧
        (entry.name = title ∨ entry.node.stringField? "title" = some title) ∧
        ∀ earlier ∈ before,
          earlier.name ≠ title ∧ earlier.node.stringField? "title" ≠ some title := by
  have hgoesBy : ∀ entry : NamedNode, entry.goesBy title = true ↔
      entry.name = title ∨ entry.node.stringField? "title" = some title := by
    intro entry
    simp [NamedNode.goesBy]
  simp only [pointerOf?, find?, Option.map_eq_some_iff, List.find?_eq_some_iff_append]
  constructor
  · rintro ⟨entry, ⟨hentry, before, after, hnamed, hbefore⟩, rfl⟩
    refine ⟨before, entry, after, hnamed, rfl, (hgoesBy entry).mp hentry, ?_⟩
    intro earlier hearlier
    have hnot := hbefore earlier hearlier
    rw [Bool.not_eq_true', Bool.eq_false_iff, Ne, hgoesBy, not_or] at hnot
    exact hnot
  · rintro ⟨before, entry, after, hnamed, hpointer, hentry, hbefore⟩
    refine ⟨entry, ⟨(hgoesBy entry).mpr hentry, before, after, hnamed, ?_⟩, hpointer⟩
    intro earlier hearlier
    rw [Bool.not_eq_true', Bool.eq_false_iff, Ne, hgoesBy, not_or]
    exact hbefore earlier hearlier

end Document

namespace Store

/-- The pointer to a named schema is a reference to it from within its document. -/
theorem lookup_of_mem_named (store : Store) {within : Source} {entry : NamedNode}
    (hnames : within.document.root.DistinctNames) (h : entry ∈ within.document.named) :
    store.lookup entry.pointer within = some (within, entry.node) := by
  obtain ⟨steps, hlocate⟩ := Document.locate?_of_mem_named hnames h
  have hsplit := Reference.split_of_startsHash (Document.startsHash_of_mem_named h)
  have htarget : store.locate? entry.pointer within = some ⟨within, steps, entry.node⟩ := by
    rw [locate?_eq_some_iff, Reference.fragment, hsplit]
    exact ⟨rfl, hlocate⟩
  rw [lookup, htarget]
  rfl

/-- **Parts are found at their addresses**, and so named schemas are found at their pointers, which
are the addresses of these schemas; the pointer for a name is that of the first schema that goes by
it. -/
theorem navigate?_address_and_lookup_named {value part : Json} {steps : List Step}
    (hat : value.at? steps = some part) (hfirst : steps.head? ≠ some (.member ""))
    (store : Store) {within : Source} (hnames : within.document.root.DistinctNames) :
    value.navigate? (Pointer.address steps) = some part ∧
      (∀ entry ∈ within.document.named,
        (∃ names ∈ Document.containers,
          entry.pointer = Pointer.address (names.map .member ++ [.member entry.name])) ∧
        store.lookup entry.pointer within = some (within, entry.node)) ∧
      ∀ title pointer, within.document.pointerOf? title = some pointer ↔
        ∃ before entry after, within.document.named = before ++ entry :: after ∧
          entry.pointer = pointer ∧
          (entry.name = title ∨ entry.node.stringField? "title" = some title) ∧
          ∀ earlier ∈ before,
            earlier.name ≠ title ∧ earlier.node.stringField? "title" ≠ some title := by
  refine ⟨?_, ?_, fun _ _ => Document.pointerOf?_eq_some_iff⟩
  · rw [Json.navigate?, Json.locate?_address hat hfirst]
    rfl
  · intro entry hentry
    obtain ⟨names, hmem, hpointer, -⟩ := Document.address_of_mem_named hnames hentry
    exact ⟨⟨names, hmem, hpointer⟩, store.lookup_of_mem_named hnames hentry⟩

/-- A document with names that need escapes, and others that look like escapes and indices. -/
def signsDocument : Document where
  id := none
  title := "Signs"
  root := .object [
    ("definitions", .object [
      ("a/b~c", .object [("title", .string "Sign"), ("type", .string "string")]),
      ("Sign", .object [("title", .string "Other")])]),
    ("#~1/", .array [.object [("", .object [("0", .string "here")])]])]

theorem navigate?_address_and_lookup_named_signs :
    signsDocument.root.at? [.member "#~1/", .item 0, .member "", .member "0"]
        = some (.string "here") ∧
      signsDocument.root.DistinctNames ∧
      signsDocument.root.navigate? "#/#~01~1/0//0" = some (.string "here") ∧
      empty.lookup "#/definitions/a~1b~0c" signsDocument.asContext
        = some (signsDocument.asContext,
            .object [("title", .string "Sign"), ("type", .string "string")]) ∧
      signsDocument.pointerOf? "Sign" = some "#/definitions/a~1b~0c" := by
  have hat : signsDocument.root.at? [.member "#~1/", .item 0, .member "", .member "0"]
      = some (.string "here") := rfl
  have hnames : signsDocument.asContext.document.root.DistinctNames := by decide
  have hnamed : signsDocument.asContext.document.named = [
      ⟨"a/b~c", "#/definitions/a~1b~0c",
        .object [("title", .string "Sign"), ("type", .string "string")]⟩,
      ⟨"Sign", "#/definitions/Sign", .object [("title", .string "Other")]⟩] := by
    rfl
  obtain ⟨hfound, hlookup, hpointer⟩ :=
    navigate?_address_and_lookup_named hat (by decide) empty hnames
  refine ⟨hat, hnames, hfound, ?_, ?_⟩
  · exact (hlookup _ (hnamed ▸ List.mem_cons_self)).2
  · exact (hpointer "Sign" _).mpr ⟨[], _, _, hnamed, rfl, Or.inr rfl, by simp⟩

end Store

end RpcSchema
