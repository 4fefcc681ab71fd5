import RpcSchema.Failure
import RpcSchema.Proofs.Json.Spelling
import RpcSchema.Proofs.Schema.Paths

/-!
# Where the faults of a schema lie

A value that is no schema is refused with a fault and a path.  The path is made of the steps down
to the value that has the fault, or to the schema that holds it, and these steps are always there.
They are written as they stand, however, and names of properties and patterns may be any text: the
path leads to the fault exactly when no slash and no escape is read in such a name.

Each reader either has a fault of its own, at most one keyword down, or passes on the fault of a
part.  What is known of the parts is a hypothesis of the lemmas on the readers, and becomes an
induction on the size of the value at the end.

## Main definitions

* `SchemaFault.Blames` — the values that can have a fault.
* `MisplacedValue.LiesIn` — a fault lies at the end of steps that begin with a keyword.

## Main results

* `Schema.liesIn_of_read_eq_error` — the faults of a value lie in it.
* `Schema.ofJson_eq_error` — what a malformed schema is reported with, and where it leads.
-/

namespace RpcSchema

/-- The values that can have a fault: the value that is not what it should be, or the schema that
holds it. -/
inductive SchemaFault.Blames : SchemaFault → Json → Prop
  | notASchema {found : Json} (h : found.object? = none) : Blames (.notASchema found) found
  | notAnArray {found : Json} (h : found.array? = none) : Blames (.notAnArray found) found
  | notAnObject {found : Json} (h : found.object? = none) : Blames (.notAnObject found) found
  | notAString {names : List Json} {found : Json} (hmem : found ∈ names)
      (h : found.string? = none) : Blames (.notAString found) (.array names)
  | reference {fields : Fields Json} {found : Json} (hget : Fields.get? fields "$ref" = some found)
      (h : found.string? = none) : Blames .referenceNotAString (.object fields)
  | type {fields : Fields Json} {found : Json} (hget : Fields.get? fields "type" = some found)
      (h : found.string? = none) : Blames (.typeNotAString found) (.object fields)
  | enum {fields : Fields Json} {found : Json} (hget : Fields.get? fields "enum" = some found)
      (h : found.array? = none) : Blames .enumNotAnArray (.object fields)
  | required {fields : Fields Json} {found : Json}
      (hget : Fields.get? fields "required" = some found) (h : found.array? = none) :
      Blames .requiredNotAnArray (.object fields)
  | unknownType {fields : Fields Json} {path name : String}
      (hname : typeName? path (Fields.get? fields "type") = .ok (some name))
      (h : Primitive.ofName? name = none) : Blames (.unknownType name) (.object fields)

/-- The keywords whose values, or parts of them, are named in paths. -/
def locatedKeywords : List String :=
  ["required", "properties", "additionalProperties", "patternProperties", "items", "allOf", "anyOf",
    "oneOf"]

theorem leading_of_mem_locatedKeywords :
    ∀ key ∈ locatedKeywords, key.toList ≠ [] ∧ key.toList.head? ≠ some '/' := by
  decide

/-- Steps down a schema, which begin with a keyword. -/
def Step.FromKeyword (steps : List Step) : Prop :=
  ∀ step ∈ steps.head?, ∃ key ∈ locatedKeywords, step = .member key

/-- A misplaced value lies in a value at a path if steps lead down to one that can have the fault,
and its path spells them. -/
def MisplacedValue.LiesIn (misplaced : MisplacedValue) (path : String) (value : Json) : Prop :=
  ∃ steps node, value.at? steps = some node ∧ Step.FromKeyword steps ∧
    misplaced.fault.Blames node ∧ misplaced.path = Pointer.spell path steps

namespace MisplacedValue

variable {misplaced : MisplacedValue} {path : String} {fault : SchemaFault} {value part : Json}
  {fields : Fields Json} {key : String}

/-- A value that has a fault itself. -/
theorem LiesIn.own (h : fault.Blames value) : LiesIn ⟨path, fault⟩ path value := by
  refine ⟨[], value, rfl, ?_, h, rfl⟩
  intro step hmem
  cases hmem

/-- A fault in a part lies in the value. -/
theorem LiesIn.below (step : Step) (steps : List Step) (hkey : Step.FromKeyword (step :: steps))
    (hat : value.at? (step :: steps) = some part)
    (h : misplaced.LiesIn (Pointer.spell path (step :: steps)) part) :
    misplaced.LiesIn path value := by
  obtain ⟨rest, node, hnode, -, hblames, hpath⟩ := h
  refine ⟨step :: steps ++ rest, node, ?_, hkey, hblames, ?_⟩
  · rw [Json.at?_append, hat, Option.bind_some, hnode]
  · rw [hpath, Pointer.spell_append]

/-- The value of a keyword. -/
theorem LiesIn.keyword (hkey : key ∈ locatedKeywords) (hget : Fields.get? fields key = some part)
    (h : misplaced.LiesIn (path ++ "/" ++ key) part) : misplaced.LiesIn path (.object fields) := by
  refine LiesIn.below (.member key) [] ?_ ?_ h
  · intro step hmem
    cases hmem
    exact ⟨key, hkey, rfl⟩
  · rw [Json.at?_member_nil, hget]

/-- A part that is one more step below a keyword. -/
theorem LiesIn.child (step : Step) (hkey : key ∈ locatedKeywords)
    (hget : Fields.get? fields key = some value) (hchild : value.child? step = some part)
    (h : misplaced.LiesIn (path ++ "/" ++ key ++ "/" ++ step.text) part) :
    misplaced.LiesIn path (.object fields) := by
  refine LiesIn.below (.member key) [step] ?_ ?_ h
  · intro first hmem
    cases hmem
    exact ⟨key, hkey, rfl⟩
  · rw [Json.at?_member, hget, Option.bind_some, Json.at?_cons, hchild]
    rfl

end MisplacedValue

open MisplacedValue

/-- The path of a keyword, as its readers write it. -/
private theorem keyword_path (path text key : String) (h : text = "/" ++ key) :
    path ++ text = path ++ "/" ++ key := by
  rw [h, String.append_assoc]

/-! ### Keywords without subschemas -/

section Keywords

variable {path : String} {fields : Fields Json} {misplaced : MisplacedValue}

theorem liesIn_of_typeName? (h : typeName? path (Fields.get? fields "type") = .error misplaced) :
    misplaced.LiesIn path (.object fields) := by
  unfold typeName? at h
  split at h
  · cases h
  · cases h
  · cases h
  · next found hstring harray hget =>
    cases h
    refine .own (.type hget ?_)
    cases found with
    | string name => exact absurd rfl (hstring name)
    | _ => rfl

theorem requiredNames_eq_error {names : List String} {values : List Json}
    (h : requiredNames path names values = .error misplaced) :
    ∃ found ∈ values, found.string? = none ∧
      misplaced = ⟨path ++ "/required", .notAString found⟩ := by
  induction values generalizing names with
  | nil => cases h
  | cons value rest ih =>
    cases value with
    | string name =>
      obtain ⟨found, hmem, hfound⟩ := ih h
      exact ⟨found, List.mem_cons_of_mem _ hmem, hfound⟩
    | _ =>
      cases h
      exact ⟨_, List.mem_cons_self, rfl, rfl⟩

theorem liesIn_of_required?
    (h : required? path (Fields.get? fields "required") = .error misplaced) :
    misplaced.LiesIn path (.object fields) := by
  unfold required? at h
  split at h
  · cases h
  · next names hget =>
    obtain ⟨found, hmem, hstring, rfl⟩ := requiredNames_eq_error h
    rw [keyword_path path "/required" "required" rfl]
    exact .keyword (by decide) hget (.own (.notAString hmem hstring))
  · next found harray hget =>
    cases h
    refine .own (.required hget ?_)
    cases found with
    | array names => exact absurd rfl (harray names)
    | _ => rfl

theorem liesIn_of_scalarKind {type : Option String}
    (htype : typeName? path (Fields.get? fields "type") = .ok type)
    (h : scalarKind path type = .error misplaced) : misplaced.LiesIn path (.object fields) := by
  cases type with
  | none => cases h
  | some name =>
    simp only [scalarKind] at h
    split at h
    · cases h
    · next hname =>
      cases h
      exact .own (.unknownType htype hname)

theorem liesIn_of_enumKind {type : Option String} {found : Json}
    (hget : Fields.get? fields "enum" = some found)
    (h : enumKind path type found = .error misplaced) : misplaced.LiesIn path (.object fields) := by
  cases found with
  | array values => cases h
  | _ =>
    cases h
    exact .own (.enum hget rfl)

theorem liesIn_of_refKind {found : Json} (hget : Fields.get? fields "$ref" = some found)
    (h : refKind path found = .error misplaced) : misplaced.LiesIn path (.object fields) := by
  cases found with
  | string reference => cases h
  | _ =>
    cases h
    exact .own (.reference hget rfl)

end Keywords

namespace Schema

/-- The faults of a value lie in it. -/
def FaultsWithin (value : Json) : Prop :=
  ∀ path misplaced, read path value = .error misplaced → misplaced.LiesIn path value

/-! ### Keywords with subschemas -/

section Parts

variable {path : String} {fields : Fields Json} {misplaced : MisplacedValue} {key : String}

theorem readItems_eq_error {items : List Json} {first : Nat}
    (h : readItems path first items = .error misplaced) :
    ∃ index part, items[index]? = some part ∧
      read (path ++ "/" ++ toString (first + index)) part = .error misplaced := by
  induction items generalizing first with
  | nil =>
    rw [readItems] at h
    cases h
  | cons item rest ih =>
    rw [readItems, bind_eq_error_iff] at h
    rcases h with hitem | ⟨schema, -, h⟩
    · exact ⟨0, item, rfl, hitem⟩
    · rcases bind_eq_error_iff.mp h with hrest | ⟨schemas, -, h⟩
      · obtain ⟨index, part, hpart, hread⟩ := ih hrest
        refine ⟨index + 1, part, hpart, ?_⟩
        rwa [show first + (index + 1) = first + 1 + index by omega]
      · cases h

theorem readFields_eq_error {entries : Fields Json}
    (h : readFields path entries = .error misplaced) :
    ∃ name part, (name, part) ∈ entries ∧ read (path ++ "/" ++ name) part = .error misplaced := by
  induction entries with
  | nil =>
    rw [readFields] at h
    cases h
  | cons entry rest ih =>
    obtain ⟨name, value⟩ := entry
    rw [readFields, bind_eq_error_iff] at h
    rcases h with hvalue | ⟨schema, -, h⟩
    · exact ⟨name, value, List.mem_cons_self, hvalue⟩
    · rcases bind_eq_error_iff.mp h with hrest | ⟨schemas, -, h⟩
      · obtain ⟨other, part, hmem, hread⟩ := ih hrest
        exact ⟨other, part, List.mem_cons_of_mem _ hmem, hread⟩
      · cases h

-- The faults of all that is smaller than the members lie in it.
variable (hfields : (Json.object fields).DistinctNames)
  (h : ∀ value, sizeOf value < sizeOf fields → value.DistinctNames → FaultsWithin value)

include hfields h

/-- What is read under a keyword as a schema. -/
private theorem liesIn_keyword {part : Json} (hkey : key ∈ locatedKeywords)
    (hget : Fields.get? fields key = some part)
    (hread : read (path ++ "/" ++ key) part = .error misplaced) :
    misplaced.LiesIn path (.object fields) := by
  refine .keyword hkey hget (h part (sizeOf_lt_of_get? hget) ?_ _ _ hread)
  exact hfields.of_hasPart (.member (Fields.mem_of_get? hget))

/-- What is read one step further down as a schema. -/
private theorem liesIn_child {value part : Json} (step : Step) (hkey : key ∈ locatedKeywords)
    (hget : Fields.get? fields key = some value) (hchild : value.child? step = some part)
    (hread : read (path ++ "/" ++ key ++ "/" ++ step.text) part = .error misplaced) :
    misplaced.LiesIn path (.object fields) := by
  have hvalue : value.DistinctNames := hfields.of_hasPart (.member (Fields.mem_of_get? hget))
  have hpart := Json.hasPart_of_child? hchild
  have hlt := sizeOf_lt_of_get? hget
  have hsub := Json.sizeOf_lt_of_hasPart hpart
  exact .child step hkey hget hchild (h part (by omega) (hvalue.of_hasPart hpart) _ _ hread)

private theorem liesIn_item {items : List Json} (hkey : key ∈ locatedKeywords)
    (hget : Fields.get? fields key = some (.array items))
    (hread : readItems (path ++ "/" ++ key) 0 items = .error misplaced) :
    misplaced.LiesIn path (.object fields) := by
  obtain ⟨index, part, hpart, hread⟩ := readItems_eq_error hread
  rw [Nat.zero_add] at hread
  exact liesIn_child hfields h (.item index) hkey hget hpart hread

theorem liesIn_of_readFieldsAt (hkey : key ∈ locatedKeywords)
    (hread : readFieldsAt path fields key = .error misplaced) :
    misplaced.LiesIn path (.object fields) := by
  rw [readFieldsAt_eq] at hread
  split at hread
  · cases hread
  · next entries hget =>
    obtain ⟨name, part, hmem, hread⟩ := readFields_eq_error hread
    -- With distinct names the member that was read is the one that its name leads to.
    have hentries := hfields.of_hasPart (.member (Fields.mem_of_get? hget))
    have hpart := Fields.get?_of_mem (Json.everyObject_object_iff.mp hentries).1 hmem
    exact liesIn_child hfields h (.member name) hkey hget hpart hread
  · next value hobject hget =>
    cases hread
    refine .keyword hkey hget (.own (.notAnObject ?_))
    cases value with
    | object entries => exact absurd rfl (hobject entries)
    | _ => rfl

theorem liesIn_of_readPartsAt (hkey : key ∈ locatedKeywords)
    (hread : readPartsAt path fields key = .error misplaced) :
    misplaced.LiesIn path (.object fields) := by
  rw [readPartsAt_eq] at hread
  split at hread
  · cases hread
  · next items hget => exact liesIn_item hfields h hkey hget (map_eq_error_iff.mp hread)
  · next value harray hget =>
    cases hread
    refine .keyword hkey hget (.own (.notAnArray ?_))
    cases value with
    | array items => exact absurd rfl (harray items)
    | _ => rfl

theorem liesIn_of_readArray (hread : readArray path fields = .error misplaced) :
    misplaced.LiesIn path (.object fields) := by
  have hkey : "items" ∈ locatedKeywords := by decide
  rw [readArray_eq, keyword_path path "/items" "items" rfl] at hread
  split at hread
  · cases hread
  · next items hget => exact liesIn_item hfields h hkey hget (map_eq_error_iff.mp hread)
  · next part _ hget => exact liesIn_keyword hfields h hkey hget (map_eq_error_iff.mp hread)

theorem liesIn_of_readAdditional (hread : readAdditional path fields = .error misplaced) :
    misplaced.LiesIn path (.object fields) := by
  rw [readAdditional_eq, keyword_path path "/additionalProperties" "additionalProperties" rfl]
    at hread
  split at hread
  · cases hread
  · cases hread
  · next part _ hget =>
    exact liesIn_keyword hfields h (by decide) hget (map_eq_error_iff.mp hread)

theorem liesIn_of_readObject (hread : readObject path fields = .error misplaced) :
    misplaced.LiesIn path (.object fields) := by
  rw [readObject, bind_eq_error_iff] at hread
  rcases hread with hread | ⟨properties, -, hread⟩
  · exact liesIn_of_readFieldsAt hfields h (by decide) hread
  rcases bind_eq_error_iff.mp hread with hread | ⟨required, -, hread⟩
  · exact liesIn_of_required? hread
  rcases bind_eq_error_iff.mp hread with hread | ⟨additional, -, hread⟩
  · exact liesIn_of_readAdditional hfields h hread
  rcases bind_eq_error_iff.mp hread with hread | ⟨patterns, -, hread⟩
  · exact liesIn_of_readFieldsAt hfields h (by decide) hread
  · cases hread

/-- The body of a schema: its cases are those of the keywords in their order of precedence. -/
theorem liesIn_of_readBody (hread : readBody path fields = .error misplaced) :
    misplaced.LiesIn path (.object fields) := by
  rw [readBody] at hread
  split at hread
  · next reference hget => exact liesIn_of_refKind hget (map_eq_error_iff.mp hread)
  split at hread
  · cases hread
  rcases bind_eq_error_iff.mp hread with hread | ⟨type, htype, hread⟩
  · exact liesIn_of_typeName? hread
  split at hread
  · next values hget => exact liesIn_of_enumKind hget (map_eq_error_iff.mp hread)
  split at hread
  · rcases bind_eq_error_iff.mp hread with hread | ⟨object, -, hread⟩
    · exact liesIn_of_readObject hfields h hread
    · cases hread
  split at hread
  · rcases bind_eq_error_iff.mp hread with hread | ⟨array, -, hread⟩
    · exact liesIn_of_readArray hfields h hread
    · cases hread
  · exact liesIn_of_scalarKind htype (map_eq_error_iff.mp hread)

/-- One level of a schema: the body, and then the compositions. -/
theorem liesIn_of_read_object (hread : read path (.object fields) = .error misplaced) :
    misplaced.LiesIn path (.object fields) := by
  rw [read] at hread
  split at hread
  · cases hread
  rcases bind_eq_error_iff.mp hread with hread | ⟨⟨base, taken⟩, -, hread⟩
  · exact liesIn_of_readBody hfields h hread
  rcases bind_eq_error_iff.mp hread with hread | ⟨parts, -, hread⟩
  · exact liesIn_of_readPartsAt hfields h (by decide) hread
  rcases bind_eq_error_iff.mp hread with hread | ⟨branches, -, hread⟩
  · exact liesIn_of_readPartsAt hfields h (by decide) hread
  rcases bind_eq_error_iff.mp hread with hread | ⟨alternatives, -, hread⟩
  · exact liesIn_of_readPartsAt hfields h (by decide) hread
  · cases hread

end Parts

/-! ### Schemas -/

/-- **The faults of a value lie in it**, at the end of steps that their paths spell. -/
theorem liesIn_of_read_eq_error {value : Json} (hvalue : value.DistinctNames) :
    FaultsWithin value := by
  induction hsize : sizeOf value using Nat.strongRecOn generalizing value with
  | ind size ih =>
  subst hsize
  intro path misplaced hread
  cases value with
  | object fields =>
    refine liesIn_of_read_object hvalue (fun part hlt hpart => ?_) hread
    refine ih (sizeOf part) ?_ hpart rfl
    rw [Json.object.sizeOf_spec]
    omega
  | bool flag => cases flag <;> rw [read] at hread <;> cases hread
  | null | number _ | string _ | array _ =>
    simp only [read, refuse] at hread
    cases hread
    exact .own (.notASchema rfl)

/-- **What a malformed schema is reported with.**  It is the document, and a path that spells steps
to the value that has the fault or to the schema that holds it.  The path leads there if no slash
and no escape is read in the names of the steps, and only then does it lead along the steps. -/
theorem ofJson_eq_error {document : String} {value : Json} {failure : Failure}
    (hvalue : value.DistinctNames)
    (h : (ofJson value "#").mapError (.malformedSchema document) = .error failure) :
    ∃ misplaced steps node, failure = .malformedSchema document misplaced ∧
      value.at? steps = some node ∧ misplaced.fault.Blames node ∧
      misplaced.path = Pointer.spell "#" steps ∧
      ((∀ step ∈ steps, step.Verbatim) → value.navigate? misplaced.path = some node) ∧
      (value.locate? misplaced.path = some (steps, node) ↔ ∀ step ∈ steps, step.Verbatim) := by
  obtain ⟨misplaced, hread, rfl⟩ := mapError_eq_error_iff.mp h
  obtain ⟨steps, node, hat, hkey, hblames, hpath⟩ :=
    liesIn_of_read_eq_error hvalue "#" misplaced hread
  have hleading : Step.Leading steps := by
    intro step hmem
    obtain ⟨key, hlocated, rfl⟩ := hkey step hmem
    exact leading_of_mem_locatedKeywords key hlocated
  have hlocate := Json.locate?_spell_iff hat hleading
  refine ⟨misplaced, steps, node, rfl, hat, hblames, hpath, ?_, hpath ▸ hlocate⟩
  intro hverbatim
  rw [hpath, Json.navigate?, hlocate.mpr hverbatim]
  rfl

/-- An object with a property that is an array, whose second item is of no known type. -/
def misspeltType (name : String) : Json :=
  .object [("properties", .object [(name, .object [("items",
    .array [.bool true, .object [("type", .string "text")]])])])]

private theorem ofJson_misspeltType (name : String) :
    ofJson (misspeltType name) "#"
      = .error ⟨Pointer.spell "#" [.member "properties", .member name, .member "items", .item 1],
          .unknownType "text"⟩ := by
  simp [misspeltType, ofJson, read, readBody, readObject, readFieldsAt_eq, readFields, readArray_eq,
    readItems, typeName?, describesObject, describesArray, scalarKind,
    objectKeywords, Fields.contains, refuse, Pointer.spell, Step.text, Primitive.ofName?,
    Primitive.all, Primitive.name, bind, Except.bind, Except.map, String.append_assoc]
  rfl

/-- The item of an unknown type, under a property whose name stands for itself. -/
theorem ofJson_eq_error_plainProperty :
    let failure : Failure := .malformedSchema "Test" ⟨"#/properties/a/items/1", .unknownType "text"⟩
    (misspeltType "a").DistinctNames ∧
      (ofJson (misspeltType "a") "#").mapError (.malformedSchema "Test") = .error failure ∧
      ∃ steps node, failure.path? = some (Pointer.spell "#" steps) ∧
        (misspeltType "a").at? steps = some node ∧
        ((misspeltType "a").locate? "#/properties/a/items/1" = some (steps, node) ↔
          ∀ step ∈ steps, step.Verbatim) := by
  intro failure
  have hnames : (misspeltType "a").DistinctNames := by decide
  have hread : (ofJson (misspeltType "a") "#").mapError (.malformedSchema "Test")
      = .error failure := by
    rw [ofJson_misspeltType]
    rfl
  obtain ⟨misplaced, steps, node, hfailure, hat, -, hpath, -, hlocate⟩ :=
    ofJson_eq_error hnames hread
  obtain ⟨-, rfl⟩ := Failure.malformedSchema.inj hfailure
  exact ⟨hnames, hread, steps, node, congrArg some hpath, hat, hlocate⟩

/-- **Under a property named `a/b` the path leads nowhere.**  It would lead to the item if the name
were written with its escapes. -/
theorem not_navigate?_slashedProperty :
    (misspeltType "a/b").DistinctNames ∧
      (ofJson (misspeltType "a/b") "#").mapError (Failure.malformedSchema "Test")
        = .error (.malformedSchema "Test" ⟨"#/properties/a/b/items/1", .unknownType "text"⟩) ∧
      (misspeltType "a/b").navigate? "#/properties/a/b/items/1" = none ∧
      (misspeltType "a/b").navigate? "#/properties/a~1b/items/1"
        = some (.object [("type", .string "text")]) := by
  refine ⟨by decide, ?_, by rfl, by rfl⟩
  rw [ofJson_misspeltType]
  rfl

end Schema

end RpcSchema
