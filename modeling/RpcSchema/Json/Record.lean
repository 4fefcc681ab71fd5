import RpcSchema.Json.Writer
import RpcSchema.Text.Quoted

/-!
# Records in JSON

A record with named fields is written as an object, whose further members are
ignored, or as an array of the field values in order, of which the last may be
left out.  Reading stops at the first fault, in the order of the text.

## Main definitions

* `RecordFault` — what can be wrong, and `RecordFault.message`.
* `Reading` — a reader of one value; `Reading.text`, `Reading.flag`, … .
* `RecordShape`, `RecordShape.read` — records by their fields.
-/

namespace RpcSchema

/-- What is wrong with a value that should be a record or a part of one. -/
inductive RecordFault
  /-- The value has another type than expected. -/
  | wrongType (found : Json) (expected : String)
  /-- An object lacks a field. -/
  | missingField (name : String)
  /-- An array has too few or too many items. -/
  | wrongLength (length : Nat) (expected : String)
  /-- A name is none of those expected. -/
  | unknownName (name : String) (expected : List String)

namespace RecordFault

/-- A value as a fault shows it. -/
def describe : Json → String
  | .null => "null"
  | .bool value => "boolean `" ++ toString value ++ "`"
  | .number (.int value) => "integer `" ++ toString value ++ "`"
  | .number (.float value) => "floating point `" ++ (Number.float value).text ++ "`"
  | .string value => "string " ++ quoteVisibly value
  | .array _ => "sequence"
  | .object _ => "map"

/-- The wording of a fault. -/
def message : RecordFault → String
  | .wrongType found expected => "invalid type: " ++ describe found ++ ", expected " ++ expected
  | .missingField name => "missing field `" ++ name ++ "`"
  | .wrongLength length expected =>
    "invalid length " ++ toString length ++ ", expected " ++ expected
  | .unknownName name expected =>
    "unknown variant `" ++ name ++ "`, expected one of "
      ++ String.intercalate ", " (expected.map fun e => "`" ++ e ++ "`")

end RecordFault

/-- A reader of a value. -/
abbrev Reading (α : Type) := Json → Except RecordFault α

namespace Reading

variable {α : Type}

/-- Any value. -/
def any : Reading Json := .ok

/-- A text. -/
def text : Reading String
  | .string value => .ok value
  | value => .error (.wrongType value "a string")

/-- A truth value. -/
def flag : Reading Bool
  | .bool value => .ok value
  | value => .error (.wrongType value "a boolean")

/-- A value that may be null. -/
def optional (read : Reading α) : Reading (Option α)
  | .null => .ok none
  | value => (read value).map some

/-- The values of a list. -/
def list (read : Reading α) : Reading (List α)
  | .array items => items.mapM read
  | value => .error (.wrongType value "a sequence")

/-- The members of an object. -/
def members : Reading (Fields Json)
  | .object fields => .ok fields
  | value => .error (.wrongType value "a map")

end Reading

/-- A field of a record: how its value is put into the record. -/
structure RecordField (ρ : Type) where
  name : String
  required : Bool
  put : Json → ρ → Except RecordFault ρ

/-- A kind of record. -/
structure RecordShape (ρ : Type) where
  /-- The name in faults. -/
  name : String
  /-- The record with every field left out. -/
  blank : ρ
  fields : List (RecordField ρ)

namespace RecordShape

variable {ρ : Type}

/-- The name of a kind of record in faults. -/
def label (shape : RecordShape ρ) : String := "struct " ++ shape.name

/-- The name of a kind of record with the number of its fields. -/
def sizedLabel (shape : RecordShape ρ) : String :=
  let count := shape.fields.length
  shape.label ++ " with " ++ toString count ++ (if count = 1 then " element" else " elements")

/-- Put one member of an object into the record. -/
def putMember (shape : RecordShape ρ) (record : ρ) (member : String × Json) :
    Except RecordFault ρ :=
  match shape.fields.find? fun field => field.name = member.1 with
  | some field => field.put member.2 record
  | none => .ok record

/-- Read a record from the members of an object. -/
def readMembers (shape : RecordShape ρ) (members : Fields Json) : Except RecordFault ρ := do
  let record ← members.foldlM shape.putMember shape.blank
  match shape.fields.find? fun field => field.required && !Fields.contains members field.name with
  | some field => .error (.missingField field.name)
  | none => .ok record

/-- Put items into the remaining fields in order; `index` fields are read. -/
def putItems (shape : RecordShape ρ) :
    List (RecordField ρ) → Nat → List Json → ρ → Except RecordFault ρ
  | [], _, _, record => .ok record
  | field :: fields, index, item :: items, record =>
    (field.put item record).bind fun record => putItems shape fields (index + 1) items record
  | field :: fields, index, [], record =>
    if field.required then .error (.wrongLength index shape.sizedLabel)
    else putItems shape fields (index + 1) [] record

/-- Read a record from an array of its field values. -/
def readItems (shape : RecordShape ρ) (items : List Json) : Except RecordFault ρ := do
  let record ← shape.putItems shape.fields 0 items shape.blank
  if shape.fields.length < items.length then
    .error (.wrongLength items.length "fewer elements in array")
  else .ok record

/-- Read a record. -/
def read (shape : RecordShape ρ) : Reading ρ
  | .object members => shape.readMembers members
  | .array items => shape.readItems items
  | value => .error (.wrongType value shape.label)

end RecordShape

end RpcSchema
