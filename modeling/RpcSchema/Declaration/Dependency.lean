import RpcSchema.Distinct
import RpcSchema.Reference
import RpcSchema.Schema.Basic

/-!
# Dependencies

A schema depends on the schemas that it names: those it refers to, and those
with a title that it holds, which are declared on their own.

## Main definitions

* `Schema.dependencies` — the names that a schema depends on.
* `NamedSchema` — a schema to be declared, with its dependencies.
-/

namespace RpcSchema

mutual

/-- The names in a schema below the top. -/
def Schema.namesBelow : Schema → List String
  | ⟨some title, _, _, _⟩ => [title]
  | ⟨none, _, kind, _⟩ => Kind.names kind

/-- The names in a shape. -/
def Kind.names : Kind → List String
  | .ref reference => [Reference.name reference]
  | .object shape => ObjectSchema.schemaNames shape
  | .listOf item => Schema.namesBelow item
  | .tuple items => Schema.namesInItems items
  | .allOf parts => Schema.namesInItems parts
  | .anyOf branches => Schema.namesInItems branches
  | _ => []

/-- The names in an object shape. -/
def ObjectSchema.schemaNames : ObjectSchema → List String
  | ⟨properties, _, additional, patterns, _⟩ =>
    Schema.namesInFields properties ++ Additional.names additional
      ++ Schema.namesInFields patterns

/-- The names in what holds for undeclared properties. -/
def Additional.names : Additional → List String
  | .schema value => Schema.namesBelow value
  | _ => []

/-- The names in schemas. -/
def Schema.namesInItems : List Schema → List String
  | [] => []
  | schema :: rest => Schema.namesBelow schema ++ Schema.namesInItems rest

/-- The names in named schemas. -/
def Schema.namesInFields : List (String × Schema) → List String
  | [] => []
  | (_, schema) :: rest => Schema.namesBelow schema ++ Schema.namesInFields rest

end

/-- The names that a schema depends on, each once. -/
def Schema.dependencies (schema : Schema) : List String := distinct (Kind.names schema.kind)

/-- A schema to be declared. -/
structure NamedSchema where
  name : String
  schema : Schema
  /-- The names it depends on, its own excepted. -/
  dependencies : List String

namespace NamedSchema

/-- A schema to be declared under a name. -/
def of (name : String) (schema : Schema) : NamedSchema :=
  ⟨name, schema, schema.dependencies.filter (· ≠ name)⟩

/-- Add the dependencies of another form of the schema. -/
def withDependenciesOf (named : NamedSchema) (source : Schema) : NamedSchema :=
  { named with
    dependencies := unionOf named.dependencies (source.dependencies.filter (· ≠ named.name)) }

end NamedSchema

end RpcSchema
