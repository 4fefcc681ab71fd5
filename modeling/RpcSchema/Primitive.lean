import RpcSchema.Json.Basic

/-!
# Primitive types

The scalar types that the `type` keyword of a schema names.

## Main definitions

* `Primitive` — the types, in their order of declaration.
* `Primitive.ofName?`, `Primitive.name` — their names.
* `Primitive.ofValue?` — the type of a scalar value.
* `Primitive.admits` — whether a value is an instance of a type.
* `Primitive.infer?` — the type that a list of values shares.
-/

namespace RpcSchema

/-- A scalar type. -/
inductive Primitive
  | string
  | number
  | integer
  | boolean
  | null
  deriving DecidableEq, Repr, Inhabited

namespace Primitive

/-- All primitive types, in order. -/
def all : List Primitive := [.string, .number, .integer, .boolean, .null]

/-- The name of a type. -/
def name : Primitive → String
  | .string => "string"
  | .number => "number"
  | .integer => "integer"
  | .boolean => "boolean"
  | .null => "null"

/-- The type of a name; `object` and `array` are no primitive types. -/
def ofName? (text : String) : Option Primitive := all.find? fun p => p.name = text

/-- The type of a scalar value. -/
def ofValue? : Json → Option Primitive
  | .null => some .null
  | .bool _ => some .boolean
  | .string _ => some .string
  | .number (.int _) => some .integer
  | .number (.float _) => some .number
  | .array _ => none
  | .object _ => none

/-- Whether a value is an instance of a type.  A floating-point number without a
fraction is an integer. -/
def admits : Primitive → Json → Bool
  | .null, .null => true
  | .boolean, .bool _ => true
  | .string, .string _ => true
  | .number, .number _ => true
  | .integer, .number (.int _) => true
  | .integer, .number (.float x) => x.isWhole
  | _, _ => false

/-- The least type that holds both, integers being numbers. -/
def widen? : Primitive → Primitive → Option Primitive
  | .integer, .number => some .number
  | .number, .integer => some .number
  | p, q => if p = q then some p else none

/-- Widen a type by the types of further values. -/
def inferFrom? (widened : Primitive) : List Json → Option Primitive
  | [] => some widened
  | value :: rest =>
    match ofValue? value with
    | none => none
    | some p =>
      match widen? widened p with
      | none => none
      | some wider => inferFrom? wider rest

/-- The type that all values of a non-empty list share, if any. -/
def infer? : List Json → Option Primitive
  | [] => none
  | value :: rest => (ofValue? value).bind fun p => inferFrom? p rest

@[simp] theorem ofName?_name (p : Primitive) : ofName? p.name = some p := by
  cases p <;> decide

end Primitive

end RpcSchema
