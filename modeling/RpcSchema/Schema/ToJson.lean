import RpcSchema.Schema.Basic

/-!
# Schemas as JSON

A schema is written with its title and description first, then the keywords of
its shape, then the kept keywords whose names are still free.  The schema that
accepts nothing is written as `false` when nothing else is to be said about it.

## Main definitions

* `Schema.toJson` — the written schema.
-/

namespace RpcSchema

/-- The member of an optional text. -/
def textMember (name : String) : Option String → Fields Json
  | some text => [(name, .string text)]
  | none => []

/-- A member that is left out when its list is empty. -/
def memberUnlessEmpty (name : String) (fields : Fields Json) : Fields Json :=
  if fields.isEmpty then [] else [(name, .object fields)]

/-- The keyword `required`, left out when no name is required. -/
def requiredMember (names : List String) : Fields Json :=
  if names.isEmpty then [] else [("required", .strings names)]

/-- The keyword that restricts property names. -/
def namesMember : Option (List String) → Fields Json
  | some names => [("propertyNames", .object [("enum", .strings names)])]
  | none => []

/-- The keyword `type` of a primitive type. -/
def typeMember (p : Primitive) : Fields Json := [("type", .string p.name)]

/-- The keyword `type` of an enumeration, left out when the type is unknown. -/
def enumTypeMember : Option Primitive → Fields Json
  | some p => typeMember p
  | none => []

mutual

/-- A schema as JSON. -/
def Schema.toJson : Schema → Json
  | ⟨title, description, kind, extra⟩ =>
    match title, description, kind, extra with
    | none, none, .never, [] => .bool false
    | title, description, kind, extra =>
      let fields := textMember "title" title ++ textMember "description" description
        ++ Kind.members kind
      .object (extra.foldl (fun fields entry => Fields.add fields entry.1 entry.2) fields)

/-- The keywords of a shape. -/
def Kind.members : Kind → Fields Json
  | .ref reference => [("$ref", .string reference)]
  | .const value => [("const", value)]
  | .enum primitive values => enumTypeMember primitive ++ [("enum", .array values)]
  | .object shape => ("type", .string "object") :: ObjectSchema.members shape
  | .list => [("type", .string "array")]
  | .listOf item => [("type", .string "array"), ("items", Schema.toJson item)]
  | .tuple items => [("type", .string "array"), ("items", .array (Schema.toJsonItems items))]
  | .allOf parts => [("allOf", .array (Schema.toJsonItems parts))]
  | .anyOf branches => [("anyOf", .array (Schema.toJsonItems branches))]
  | .primitive type => typeMember type
  | .empty => []
  | .never => [("not", .object [])]

/-- The keywords of an object shape after its type. -/
def ObjectSchema.members : ObjectSchema → Fields Json
  | ⟨properties, required, additional, patterns, names⟩ =>
    memberUnlessEmpty "properties" (Schema.toJsonFields properties) ++ requiredMember required
      ++ Additional.members additional
      ++ memberUnlessEmpty "patternProperties" (Schema.toJsonFields patterns)
      ++ namesMember names

/-- The keyword about undeclared properties. -/
def Additional.members : Additional → Fields Json
  | .unstated => []
  | .allowed flag => [("additionalProperties", .bool flag)]
  | .schema value => [("additionalProperties", Schema.toJson value)]

/-- Schemas as JSON. -/
def Schema.toJsonItems : List Schema → List Json
  | [] => []
  | schema :: rest => Schema.toJson schema :: Schema.toJsonItems rest

/-- Named schemas as JSON. -/
def Schema.toJsonFields : List (String × Schema) → Fields Json
  | [] => []
  | (name, schema) :: rest => (name, Schema.toJson schema) :: Schema.toJsonFields rest

end

end RpcSchema
