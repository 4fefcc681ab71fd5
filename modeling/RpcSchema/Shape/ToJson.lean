import RpcSchema.Schema.ToJson
import RpcSchema.Shape

/-!
# Shapes as JSON

A shape is written as an object that begins with its kind.  Members without a
value are left out.

## Main definitions

* `Shape.toJson` — the written shape.
-/

namespace RpcSchema

/-- A constant of an enumeration as JSON. -/
def EnumMember.toJson (member : EnumMember) : Json :=
  .object [("key", .string member.key), ("value", .string member.value)]

/-- The member of a type reference. -/
def typeRefMember (typeRef : String) : Fields Json := [("type_ref", .string typeRef)]

/-- The member of listed property names. -/
def keysMember : Option (List String) → Fields Json
  | some keys => [("keys", .strings keys)]
  | none => []

/-- The object of a kind with further members. -/
def ofKindMember (kind : String) (fields : Fields Json) : Json :=
  .object (("kind", .string kind) :: fields)

mutual

/-- A shape as JSON. -/
def Shape.toJson : Shape → Json
  | .forward name typeRef => ofKindMember "opaque" (("name", .string name) :: typeRefMember typeRef)
  | .reference name typeRef =>
    ofKindMember "reference" (("name", .string name) :: typeRefMember typeRef)
  | .constant value typeRef => ofKindMember "const" (("value", value) :: typeRefMember typeRef)
  | .enumeration members =>
    ofKindMember "enum" [("members", .array (members.map EnumMember.toJson))]
  | .object properties index =>
    ofKindMember "object"
      (("properties", .array (Property.toJsonItems properties)) :: IndexSignature.member index)
  | .array element typeRef =>
    ofKindMember "array" (("element", Shape.toJson element) :: typeRefMember typeRef)
  | .tuple elements typeRef =>
    ofKindMember "tuple"
      (("elements", .array (Shape.toJsonItems elements)) :: typeRefMember typeRef)
  | .union branches typeRef =>
    ofKindMember "union" (("branches", .strings branches) :: typeRefMember typeRef)
  | .primitive typeRef => ofKindMember "primitive" (typeRefMember typeRef)
  | .any typeRef => ofKindMember "any" (typeRefMember typeRef)
  | .void typeRef => ofKindMember "void" (typeRefMember typeRef)
  | .never typeRef => ofKindMember "never" (typeRefMember typeRef)

/-- A property as JSON. -/
def Property.toJson : Property → Json
  | ⟨name, required, description, typeRef, shape⟩ =>
    .object ([("name", .string name), ("required", .bool required)]
      ++ textMember "description" description ++ typeRefMember typeRef
      ++ [("shape", Shape.toJson shape)])

/-- The member for properties whose names are not fixed. -/
def IndexSignature.member : Option IndexSignature → Fields Json
  | none => []
  | some ⟨keys, typeRef, shape⟩ =>
    [("index", .object (keysMember keys ++ typeRefMember typeRef
      ++ [("shape", Shape.toJson shape)]))]

/-- Shapes as JSON. -/
def Shape.toJsonItems : List Shape → List Json
  | [] => []
  | shape :: rest => Shape.toJson shape :: Shape.toJsonItems rest

/-- Properties as JSON. -/
def Property.toJsonItems : List Property → List Json
  | [] => []
  | property :: rest => Property.toJson property :: Property.toJsonItems rest

end

end RpcSchema
