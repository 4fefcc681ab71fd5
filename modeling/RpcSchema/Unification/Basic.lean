import RpcSchema.Distinct
import RpcSchema.Schema.ToJson
import RpcSchema.Unification.Conflict

/-!
# Combining schemas: common parts

What intersection and union of two schemas share: how titles and descriptions
combine, how patterns are joined, and how large a schema is, which bounds the
depth of a combination.

## Main definitions

* `Schema.joined` — a shape with the titles and descriptions of two schemas.
* `Schema.size`, `Schema.atoms` — the number of nodes, and of those that are no
  unions.
-/

namespace RpcSchema

/-- A shape with the titles and descriptions of two schemas, of which the right
one goes first, and the given keywords. -/
def Schema.joined (a b : Schema) (extra : Fields Json) (kind : Kind) : Schema :=
  ⟨b.title.or a.title, b.description.or a.description, kind, extra⟩

/-- The shape of the enumeration of some values. -/
def Kind.enumOf (values : List Json) : Kind := .enum (Primitive.infer? values) values

/-- Join patterns: an entry on the right takes the one of its name on the left
along to the end. -/
def mergePatterns {m : Type → Type} [Monad m] (merge : Schema → Schema → m Schema)
    (left : Fields Schema) : Fields Schema → m (Fields Schema)
  | [] => pure left
  | (pattern, b) :: right =>
    match Fields.extract? left pattern with
    | some (a, others) => do
      let merged ← merge a b
      mergePatterns merge (others ++ [(pattern, merged)]) right
    | none => mergePatterns merge (left ++ [(pattern, b)]) right

/-! ### Sizes -/

mutual

/-- The number of schemas in a schema, itself included. -/
def Schema.size : Schema → Nat
  | ⟨_, _, kind, _⟩ => Kind.size kind + 1

/-- The number of schemas below a shape. -/
def Kind.size : Kind → Nat
  | .object shape => ObjectSchema.size shape
  | .listOf item => Schema.size item
  | .tuple items => Schema.sizeItems items
  | .allOf parts => Schema.sizeItems parts
  | .anyOf branches => Schema.sizeItems branches
  | _ => 0

/-- The number of schemas below an object shape. -/
def ObjectSchema.size : ObjectSchema → Nat
  | ⟨properties, _, additional, patterns, _⟩ =>
    Schema.sizeFields properties + Additional.size additional + Schema.sizeFields patterns

/-- The number of schemas of undeclared properties. -/
def Additional.size : Additional → Nat
  | .schema value => Schema.size value
  | _ => 0

/-- The number of schemas in a list. -/
def Schema.sizeItems : List Schema → Nat
  | [] => 0
  | schema :: rest => Schema.size schema + Schema.sizeItems rest

/-- The number of schemas in a list of named ones. -/
def Schema.sizeFields : List (String × Schema) → Nat
  | [] => 0
  | (_, schema) :: rest => Schema.size schema + Schema.sizeFields rest

end

mutual

/-- The number of schemas in a schema that are no unions. -/
def Schema.atoms : Schema → Nat
  | ⟨_, _, kind, _⟩ => Kind.atoms kind

/-- The number of schemas in a shape that are no unions, that of the shape
included. -/
def Kind.atoms : Kind → Nat
  | .object shape => ObjectSchema.atoms shape + 1
  | .listOf item => Schema.atoms item + 1
  | .tuple items => Schema.atomsItems items + 1
  | .allOf parts => Schema.atomsItems parts + 1
  | .anyOf branches => Schema.atomsItems branches
  | _ => 1

/-- The number of schemas below an object shape that are no unions. -/
def ObjectSchema.atoms : ObjectSchema → Nat
  | ⟨properties, _, additional, patterns, _⟩ =>
    Schema.atomsFields properties + Additional.atoms additional + Schema.atomsFields patterns

/-- The number of schemas of undeclared properties that are no unions. -/
def Additional.atoms : Additional → Nat
  | .schema value => Schema.atoms value
  | _ => 0

/-- The number of schemas in a list that are no unions. -/
def Schema.atomsItems : List Schema → Nat
  | [] => 0
  | schema :: rest => Schema.atoms schema + Schema.atomsItems rest

/-- The number of schemas in a list of named ones that are no unions. -/
def Schema.atomsFields : List (String × Schema) → Nat
  | [] => 0
  | (_, schema) :: rest => Schema.atoms schema + Schema.atomsFields rest

end

end RpcSchema
