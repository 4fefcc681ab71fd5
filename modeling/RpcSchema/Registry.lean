import RpcSchema.Schema.Basic
import RpcSchema.Reference

/-!
# Registries of synthesized schemas

While a module is generated, schemas without a name of their own are given one
and kept in a registry.  A name holds one schema for good: the same schema
registered again under the same name finds its entry, another schema gets the
name with a number, from 2 up.  Reserved names, those that the module declares
itself, are never given out.

## Main definitions

* `Registry` — the entries, in order of registration, and the reserved names.
* `Registry.insert` — register a schema.
* `Registry.get?` — an entry.
-/

namespace RpcSchema

/-- Synthesized schemas by name. -/
structure Registry where
  entries : Fields Schema
  reserved : List String

namespace Registry

/-- A registry without entries. -/
def reserving (names : List String) : Registry := ⟨[], names⟩

/-- The entry of a name. -/
def get? (registry : Registry) (name : String) : Option Schema :=
  Fields.get? registry.entries name

/-- The `index`-th name to try for a wanted name: the name itself, then the name
followed by 2, 3, and so on. -/
def candidate (name : String) (index : Nat) : String :=
  if index = 0 then name else name ++ toString (index + 1)

/-- Whether the schema can stand under a name: the name is free, or the schema
stands there already. -/
def accepts (registry : Registry) (schema : Schema) (name : String) : Bool :=
  match registry.get? name with
  | some existing => existing == schema.withTitle name
  | none => !registry.reserved.contains name

/-- The names to try.  One of them is free: there is one more of them than
names that could be taken. -/
def candidates (registry : Registry) (name : String) : List String :=
  (List.range (registry.entries.length + registry.reserved.length + 1)).map (candidate name)

/-- The name that a schema is registered under when `name` is wanted. -/
def slot (registry : Registry) (name : String) (schema : Schema) : String :=
  ((registry.candidates name).find? (registry.accepts schema)).getD name

/-- Register a schema under the wanted name or a numbered variant of it.  The
entry carries its name as title. -/
def insert (registry : Registry) (name : String) (schema : Schema) : String × Registry :=
  let chosen := registry.slot name schema
  match registry.get? chosen with
  | some _ => (chosen, registry)
  | none =>
    (chosen, { registry with entries := registry.entries ++ [(chosen, schema.withTitle chosen)] })

end Registry

/-- The reference to a registered schema, titled with its name. -/
def Schema.registered (name : String) : Schema :=
  (Schema.reference (Reference.toComponent name)).withTitle name

end RpcSchema
