import RpcSchema.Schema.Basic

/-!
# Schemas from JSON

The shape of a schema is decided by its keywords in a fixed order of
precedence: a reference, a constant, an enumeration, an object, an array, a
primitive type.  Composition keywords beside a shape, or beside each other, make
an intersection.  Keywords that decide nothing are kept.

A fault tells what is wrong and at which path.

## Main definitions

* `SchemaFault`, `SchemaFault.message` — what can be wrong with a schema.
* `Schema.ofJson` — the schema that a value describes.
-/

namespace RpcSchema

/-- What is wrong with a value that should be a schema or part of one. -/
inductive SchemaFault
  /-- A schema is an object or a truth value. -/
  | notASchema (found : Json)
  | notAnArray (found : Json)
  | notAnObject (found : Json)
  | notAString (found : Json)
  | referenceNotAString
  | typeNotAString (found : Json)
  | enumNotAnArray
  | requiredNotAnArray
  | unknownType (name : String)

/-- The wording of a fault. -/
def SchemaFault.message : SchemaFault → String
  | .notASchema found => "expected object or boolean, got " ++ found.typeName
  | .notAnArray found => "expected array, got " ++ found.typeName
  | .notAnObject found => "expected object, got " ++ found.typeName
  | .notAString found => "expected string, got " ++ found.typeName
  | .referenceNotAString => "$ref must be a string"
  | .typeNotAString found => "type must be a string, got " ++ found.typeName
  | .enumNotAnArray => "enum must be an array"
  | .requiredNotAnArray => "required must be an array"
  | .unknownType name => "unknown type \"" ++ name ++ "\""

/-- A fault and the path of the value that has it. -/
structure MisplacedValue where
  path : String
  fault : SchemaFault

/-- The result of reading a part of a schema. -/
abbrev SchemaReading (α : Type) := Except MisplacedValue α

/-- Refuse the value at a path. -/
def refuse {α : Type} (path : String) (fault : SchemaFault) : SchemaReading α :=
  .error ⟨path, fault⟩

/-! ### Keywords without subschemas -/

/-- `true`, or an object without keywords. -/
def acceptsAnything : Json → Bool
  | .bool value => value
  | .object fields => fields.isEmpty
  | _ => false

/-- The keyword is taken out when its value is a string. -/
def takenText (fields : Fields Json) (key : String) : List String :=
  if ((Fields.get? fields key).bind Json.string?).isSome then [key] else []

/-- The names of `type`: of a list the first string other than `null`, or else
the first string. -/
def typeName? (path : String) : Option Json → SchemaReading (Option String)
  | none => .ok none
  | some (.string name) => .ok (some name)
  | some (.array types) =>
    let names := types.filterMap Json.string?
    .ok ((names.find? (· ≠ "null")).or names.head?)
  | some found => refuse path (.typeNotAString found)

/-- Append the names of `required` that are new. -/
def requiredNames (path : String) (names : List String) : List Json → SchemaReading (List String)
  | [] => .ok names
  | .string name :: rest =>
    requiredNames path (if names.contains name then names else names ++ [name]) rest
  | found :: _ => refuse (path ++ "/required") (.notAString found)

/-- The value of `required`. -/
def required? (path : String) : Option Json → SchemaReading (List String)
  | none => .ok []
  | some (.array names) => requiredNames path [] names
  | some _ => refuse path .requiredNotAnArray

/-- The names that `propertyNames` lists under `enum`. -/
def listedNames? (fields : Fields Json) : Option (List String) :=
  ((Fields.get? fields "propertyNames").bind fun value => value.field? "enum").bind fun listed =>
    listed.array?.map fun values => values.filterMap Json.string?

/-- The keywords that make a schema without `type` an object. -/
def objectKeywords : List String :=
  ["properties", "required", "additionalProperties", "patternProperties", "propertyNames"]

/-- Whether the keywords describe an object. -/
def describesObject (type : Option String) (fields : Fields Json) : Bool :=
  match type with
  | some name => name = "object"
  | none => objectKeywords.any fun key => Fields.contains fields key

/-- Whether the keywords describe an array. -/
def describesArray (type : Option String) (fields : Fields Json) : Bool :=
  match type with
  | some name => name = "array"
  | none => Fields.contains fields "items"

/-- The shape of a schema that has no keyword but perhaps a type. -/
def scalarKind (path : String) : Option String → SchemaReading Kind
  | none => .ok .empty
  | some name =>
    match Primitive.ofName? name with
    | some p => .ok (.primitive p)
    | none => refuse path (.unknownType name)

/-- The shape of an enumeration.  Its type is the one stated, or else the one
that the values share. -/
def enumKind (path : String) (type : Option String) : Json → SchemaReading Kind
  | .array values =>
    let primitive := match type with
      | some name => Primitive.ofName? name
      | none => Primitive.infer? values
    .ok (.enum primitive values)
  | _ => refuse path .enumNotAnArray

/-- The shape of a reference. -/
def refKind (path : String) : Json → SchemaReading Kind
  | .string reference => .ok (.ref reference)
  | _ => refuse path .referenceNotAString

/-- The shape made of a base shape, the parts of `allOf` and the unions of
`anyOf` and `oneOf`.  A lone union is not wrapped. -/
def composedKind (base : Kind) (parts : Option (List Schema)) (unions : List Kind) : Kind :=
  let based := if base.isEmpty then [] else [Schema.ofKind base]
  match parts, based, unions with
  | none, [], [union] => union
  | _, _, _ => .allOf (based ++ parts.getD [] ++ unions.map Schema.ofKind)

/-! ### Sizes -/

theorem sizeOf_lt_of_get? {fields : Fields Json} {key : String} {value : Json}
    (h : Fields.get? fields key = some value) : sizeOf value < sizeOf fields := by
  induction fields with
  | nil => simp at h
  | cons entry rest ih =>
    obtain ⟨name, found⟩ := entry
    rw [Fields.get?_cons] at h
    split at h
    · cases h; simp; omega
    · have := ih h; simp; omega

/-! ### Schemas -/

mutual

/-- Read a schema; `path` locates it. -/
def Schema.read (path : String) : Json → SchemaReading Schema
  | .bool true => .ok (.ofKind .empty)
  | .bool false => .ok (.ofKind .never)
  | .object fields =>
    let title := (Fields.get? fields "title").bind Json.string?
    let description := (Fields.get? fields "description").bind Json.string?
    let texts := takenText fields "title" ++ takenText fields "description"
    if ((Fields.get? fields "not").map acceptsAnything).getD false then
      .ok ⟨title, description, .never, (texts ++ ["not"]).foldl Fields.swapErase fields⟩
    else do
      let (base, taken) ← Schema.readBody path fields
      let parts ← Schema.readPartsAt path fields "allOf"
      let branches ← Schema.readPartsAt path fields "anyOf"
      let alternatives ← Schema.readPartsAt path fields "oneOf"
      let unions := branches.toList ++ alternatives.toList
      let kind := if parts.isNone && unions.isEmpty then base
        else composedKind base parts (unions.map .anyOf)
      let taken := texts ++ ["allOf", "anyOf", "oneOf"] ++ taken
      .ok ⟨title, description, kind, taken.foldl Fields.swapErase fields⟩
  | value => refuse path (.notASchema value)
termination_by value => (sizeOf value, 0)

/-- Read the shape that the keywords other than the composition keywords
describe, and name the keywords it takes. -/
def Schema.readBody (path : String) (fields : Fields Json) : SchemaReading (Kind × List String) :=
  match Fields.get? fields "$ref" with
  | some reference => (refKind path reference).map fun kind => (kind, ["$ref"])
  | none =>
    match Fields.get? fields "const" with
    | some value => .ok (.const value, ["const", "type"])
    | none => do
      let type ← typeName? path (Fields.get? fields "type")
      match Fields.get? fields "enum" with
      | some values => (enumKind path type values).map fun kind => (kind, ["type", "enum"])
      | none =>
        if describesObject type fields then do
          let object ← Schema.readObject path fields
          .ok (.object object, ["type", "properties", "required", "additionalProperties",
            "patternProperties"] ++ if object.names.isSome then ["propertyNames"] else [])
        else if describesArray type fields then do
          .ok (← Schema.readArray path fields, ["type", "items"])
        else (scalarKind path type).map fun kind => (kind, ["type"])
termination_by (sizeOf fields, 3)

/-- Read the shape of an object. -/
def Schema.readObject (path : String) (fields : Fields Json) : SchemaReading ObjectSchema := do
  let properties ← Schema.readFieldsAt path fields "properties"
  let required ← required? path (Fields.get? fields "required")
  let additional ← Schema.readAdditional path fields
  let patterns ← Schema.readFieldsAt path fields "patternProperties"
  .ok ⟨properties, required, additional, patterns, listedNames? fields⟩
termination_by (sizeOf fields, 2)

/-- Read what holds for undeclared properties. -/
def Schema.readAdditional (path : String) (fields : Fields Json) : SchemaReading Additional :=
  match _h : Fields.get? fields "additionalProperties" with
  | none => .ok .unstated
  | some (.bool flag) => .ok (.allowed flag)
  | some value => (Schema.read (path ++ "/additionalProperties") value).map .schema
termination_by (sizeOf fields, 1)
decreasing_by have := sizeOf_lt_of_get? _h; left; simp_all

/-- Read the shape of an array. -/
def Schema.readArray (path : String) (fields : Fields Json) : SchemaReading Kind :=
  match _h : Fields.get? fields "items" with
  | none => .ok .list
  | some (.array items) => (Schema.readItems (path ++ "/items") 0 items).map .tuple
  | some item => (Schema.read (path ++ "/items") item).map .listOf
termination_by (sizeOf fields, 2)
decreasing_by
  · have := sizeOf_lt_of_get? _h; left; simp_all; omega
  · have := sizeOf_lt_of_get? _h; left; simp_all

/-- Read a list of schemas under a keyword, if the keyword is there. -/
def Schema.readPartsAt (path : String) (fields : Fields Json) (key : String) :
    SchemaReading (Option (List Schema)) :=
  match _h : Fields.get? fields key with
  | none => .ok none
  | some (.array items) => (Schema.readItems (path ++ "/" ++ key) 0 items).map some
  | some value => refuse (path ++ "/" ++ key) (.notAnArray value)
termination_by (sizeOf fields, 2)
decreasing_by have := sizeOf_lt_of_get? _h; left; simp_all; omega

/-- Read the named schemas under a keyword; none when the keyword is missing. -/
def Schema.readFieldsAt (path : String) (fields : Fields Json) (key : String) :
    SchemaReading (List (String × Schema)) :=
  match _h : Fields.get? fields key with
  | none => .ok []
  | some (.object entries) => Schema.readFields (path ++ "/" ++ key) entries
  | some value => refuse (path ++ "/" ++ key) (.notAnObject value)
termination_by (sizeOf fields, 1)
decreasing_by have := sizeOf_lt_of_get? _h; left; simp_all; omega

/-- Read schemas by position; `index` is that of the first. -/
def Schema.readItems (path : String) (index : Nat) : List Json → SchemaReading (List Schema)
  | [] => .ok []
  | item :: rest => do
    let schema ← Schema.read (path ++ "/" ++ toString index) item
    let schemas ← Schema.readItems path (index + 1) rest
    .ok (schema :: schemas)
termination_by items => (sizeOf items, 1)

/-- Read named schemas. -/
def Schema.readFields (path : String) : List (String × Json) →
    SchemaReading (List (String × Schema))
  | [] => .ok []
  | (name, value) :: rest => do
    let schema ← Schema.read (path ++ "/" ++ name) value
    let schemas ← Schema.readFields path rest
    .ok ((name, schema) :: schemas)
termination_by entries => (sizeOf entries, 1)

end

/-- The schema that a value describes; `path` locates the value in faults. -/
def Schema.ofJson (value : Json) (path : String) : SchemaReading Schema := Schema.read path value

end RpcSchema
