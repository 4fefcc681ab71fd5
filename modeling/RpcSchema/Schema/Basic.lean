import RpcSchema.Json.Basic
import RpcSchema.Primitive

/-!
# Schemas

A schema is read once from JSON into a type in which exactly one shape is
active.  What the keywords without a structural meaning say is kept aside.

Equality ignores the order of properties, patterns and kept keywords, as JSON
does for objects, and minds every other order.

## Main definitions

* `Schema`, `Kind`, `ObjectSchema`, `Additional` — schemas and their shapes.
* `Schema.beq` — equality.
* `Schema.ofKind`, `Schema.reference` — schemas without further keywords.
* `Schema.isStringEnum`, `ObjectSchema.isDynamic` — classes of schemas.
-/

namespace RpcSchema

mutual

/-- A schema. -/
structure Schema where
  /-- The nominal name; anonymous schemas have none. -/
  title : Option String
  description : Option String
  kind : Kind
  /-- Keywords without a structural meaning. -/
  extra : List (String × Json)

/-- The active shape of a schema. -/
inductive Kind
  /-- A reference left in place. -/
  | ref (reference : String)
  /-- One value. -/
  | const (value : Json)
  /-- One of some values. -/
  | enum (primitive : Option Primitive) (values : List Json)
  | object (shape : ObjectSchema)
  /-- An array of anything. -/
  | list
  /-- An array whose items all have one schema. -/
  | listOf (item : Schema)
  /-- An array with a schema for each position. -/
  | tuple (items : List Schema)
  /-- An intersection. -/
  | allOf (parts : List Schema)
  /-- A union. -/
  | anyOf (branches : List Schema)
  | primitive (type : Primitive)
  /-- No shape: any value, or no result. -/
  | empty
  /-- No value at all. -/
  | never

/-- The shape of an object. -/
structure ObjectSchema where
  properties : List (String × Schema)
  required : List String
  additional : Additional
  /-- Schemas of the properties whose names match a pattern. -/
  patterns : List (String × Schema)
  /-- The only names that properties may have. -/
  names : Option (List String)

/-- What holds for properties that are not declared. -/
inductive Additional
  | unstated
  | allowed (flag : Bool)
  | schema (value : Schema)

end

/-- An object about which nothing is said. -/
def ObjectSchema.blank : ObjectSchema := ⟨[], [], .unstated, [], none⟩

namespace Schema

/-- The schema of a shape, without title, description and further keywords. -/
def ofKind (kind : Kind) : Schema := ⟨none, none, kind, []⟩

instance : Inhabited Schema := ⟨ofKind .empty⟩

/-- The schema with a title. -/
def withTitle (schema : Schema) (title : String) : Schema := { schema with title := some title }

/-- A bare reference. -/
def reference (text : String) : Schema := ofKind (.ref text)

end Schema

/-! ### Equality -/

mutual

/-- Equality of schemas. -/
def Schema.beq : Schema → Schema → Bool
  | ⟨title, description, kind, extra⟩, other =>
    title = other.title && description = other.description && Kind.beq kind other.kind &&
      Json.beq (.object extra) (.object other.extra)
termination_by structural a => a

/-- Equality of shapes. -/
def Kind.beq : Kind → Kind → Bool
  | .ref r, .ref s => r = s
  | .const x, .const y => x == y
  | .enum p xs, .enum q ys => p = q && Json.beqItems xs ys
  | .object a, .object b => ObjectSchema.beq a b
  | .list, .list => true
  | .listOf a, .listOf b => Schema.beq a b
  | .tuple as, .tuple bs => Schema.beqItems as bs
  | .allOf as, .allOf bs => Schema.beqItems as bs
  | .anyOf as, .anyOf bs => Schema.beqItems as bs
  | .primitive p, .primitive q => p = q
  | .empty, .empty => true
  | .never, .never => true
  | _, _ => false
termination_by structural a => a

/-- Equality of object shapes. -/
def ObjectSchema.beq : ObjectSchema → ObjectSchema → Bool
  | ⟨properties, required, additional, patterns, names⟩, other =>
    properties.length = other.properties.length && Schema.beqFields properties other.properties &&
      required = other.required && Additional.beq additional other.additional &&
      patterns.length = other.patterns.length && Schema.beqFields patterns other.patterns &&
      names = other.names
termination_by structural a => a

/-- Equality of what holds for undeclared properties. -/
def Additional.beq : Additional → Additional → Bool
  | .unstated, .unstated => true
  | .allowed a, .allowed b => a = b
  | .schema a, .schema b => Schema.beq a b
  | _, _ => false
termination_by structural a => a

/-- Equality of schemas, one by one. -/
def Schema.beqItems : List Schema → List Schema → Bool
  | [], [] => true
  | a :: as, b :: bs => Schema.beq a b && Schema.beqItems as bs
  | _, _ => false
termination_by structural a => a

/-- Whether every schema on the left has an equal one of its name on the right. -/
def Schema.beqFields : List (String × Schema) → List (String × Schema) → Bool
  | [], _ => true
  | (name, a) :: as, bs =>
    (match Fields.get? bs name with
      | some b => Schema.beq a b
      | none => false) && Schema.beqFields as bs
termination_by structural a => a

end

instance : BEq Schema := ⟨Schema.beq⟩

instance : BEq Kind := ⟨Kind.beq⟩

/-! ### Classes of schemas -/

namespace Kind

/-- Whether the shape is an enumeration of strings. -/
def isStringEnum : Kind → Bool
  | .enum type values =>
    (type = none || type = some .string) && !values.isEmpty && values.all Json.isString
  | _ => false

/-- Whether the shape is an enumeration. -/
def isEnum : Kind → Bool
  | .enum _ _ => true
  | _ => false

/-- Whether the shape says nothing. -/
def isEmpty : Kind → Bool
  | .empty => true
  | _ => false

end Kind

namespace Schema

/-- Whether the schema has no shape. -/
def isEmpty (schema : Schema) : Bool := schema.kind.isEmpty

/-- Whether the schema is an enumeration of strings. -/
def isStringEnum (schema : Schema) : Bool := schema.kind.isStringEnum

/-- Whether the schema is an enumeration. -/
def isEnum (schema : Schema) : Bool := schema.kind.isEnum

end Schema

namespace Additional

/-- Whether undeclared properties are forbidden. -/
def isClosed : Additional → Bool
  | .allowed false => true
  | _ => false

/-- The schema of undeclared properties. -/
def schema? : Additional → Option Schema
  | .schema value => some value
  | _ => none

end Additional

namespace ObjectSchema

/-- Whether the names of the properties are not fixed. -/
def isDynamic (object : ObjectSchema) : Bool :=
  object.properties.isEmpty &&
    (!object.patterns.isEmpty || object.names.isSome || object.additional.schema?.isSome)

end ObjectSchema

end RpcSchema
