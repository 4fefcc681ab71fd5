import RpcSchema.Json.Basic

/-!
# Shapes

The structure of a schema in the terms of a target language: what a template
layer needs to declare it.  Next to the structure stands the *type reference*,
the text that names or spells out the type where it is used.

## Main definitions

* `Shape`, `Property`, `IndexSignature`, `EnumMember` — shapes and their parts.
-/

namespace RpcSchema

/-- A constant of an enumeration of strings. -/
structure EnumMember where
  /-- The name of the constant. -/
  key : String
  value : String
  deriving DecidableEq, Repr

mutual

/-- The structure of a schema.  The last argument of most constructors is the
type reference. -/
inductive Shape
  /-- A reference left in place, to be declared ahead. -/
  | forward (name typeRef : String)
  /-- A named schema declared elsewhere. -/
  | reference (name typeRef : String)
  | constant (value : Json) (typeRef : String)
  | enumeration (members : List EnumMember)
  | object (properties : List Property) (index : Option IndexSignature)
  | array (element : Shape) (typeRef : String)
  | tuple (elements : List Shape) (typeRef : String)
  /-- A union of types, given by their type references. -/
  | union (branches : List String) (typeRef : String)
  | primitive (typeRef : String)
  | any (typeRef : String)
  | void (typeRef : String)
  | never (typeRef : String)

/-- A property of an object. -/
structure Property where
  name : String
  required : Bool
  description : Option String
  typeRef : String
  shape : Shape

/-- The values of properties whose names are not fixed. -/
structure IndexSignature where
  /-- The only names there may be, when they are listed. -/
  keys : Option (List String)
  typeRef : String
  shape : Shape

end

/-- The type reference of a shape, which enumerations and objects have none of. -/
def Shape.typeRef? : Shape → Option String
  | .forward _ typeRef => some typeRef
  | .reference _ typeRef => some typeRef
  | .constant _ typeRef => some typeRef
  | .enumeration _ => none
  | .object _ _ => none
  | .array _ typeRef => some typeRef
  | .tuple _ typeRef => some typeRef
  | .union _ typeRef => some typeRef
  | .primitive typeRef => some typeRef
  | .any typeRef => some typeRef
  | .void typeRef => some typeRef
  | .never typeRef => some typeRef

end RpcSchema
