import RpcSchema.Unification.Intersection
import RpcSchema.Unification.Union
import RpcSchema.Schema.Acknowledgment

/-!
# Unification

Compositions are worked out from the inside: every intersection becomes one
schema, and every union as well unless unions are preserved.  What a composition
says about itself (title, description, further keywords) is laid over the
result.

## Main definitions

* `Mode`, `combine` — the combination of a list of schemas.
* `Schema.unify` — a schema without compositions, but for preserved unions.
-/

namespace RpcSchema

/-- How a list of schemas is combined. -/
inductive Mode
  /-- By intersection. -/
  | all
  /-- By union. -/
  | any
  deriving DecidableEq, Repr

/-- Lay what a composition says about itself over its result.  A result made of
several schemas is a new one and keeps no title but that of the composition. -/
def Schema.overlay (title description : Option String) (extra : Fields Json) (composite : Bool)
    (merged : Schema) : Schema :=
  { merged with
    title := if title.isSome || composite then title else merged.title
    description := description.or merged.description
    extra := extra.foldl (fun extra entry => Fields.set extra entry.1 entry.2) merged.extra }

/-- The union of schemas that are unified already.  When there are none, every
schema was an acknowledgment, and the first one stands. -/
def unitePayloads (schemas : List Schema) : List Schema → Unifying Schema
  | [] => pure (schemas.head?.getD (.ofKind .empty))
  | first :: rest => Schema.uniteAll first rest

mutual

/-- Work out the compositions in a schema. -/
def Schema.unify (preserveUnions : Bool) : Schema → Unifying Schema
  | ⟨title, description, .allOf parts, extra⟩ => do
    let unified ← Schema.unifyItems preserveUnions parts
    let merged ← ExceptT.mk (pure (Schema.intersectAll unified))
    pure (merged.overlay title description extra (1 < parts.length))
  | ⟨title, description, .anyOf branches, extra⟩ => do
    if preserveUnions then
      let unified ← Schema.unifyItems preserveUnions branches
      pure ((Union.ofBranches (distinct unified)).overlay title description extra false)
    else
      let unified ← Schema.unifyPayloads preserveUnions branches
      let merged ← unitePayloads branches unified
      pure (merged.overlay title description extra (1 < branches.length))
  | ⟨title, description, .object shape, extra⟩ => do
    let shape ← ObjectSchema.unify preserveUnions shape
    pure ⟨title, description, .object shape, extra⟩
  | ⟨title, description, .listOf item, extra⟩ => do
    let item ← Schema.unify preserveUnions item
    pure ⟨title, description, .listOf item, extra⟩
  | ⟨title, description, .tuple items, extra⟩ => do
    let items ← Schema.unifyItems preserveUnions items
    pure ⟨title, description, .tuple items, extra⟩
  | schema => pure schema

/-- Work out the compositions in an object shape. -/
def ObjectSchema.unify (preserveUnions : Bool) : ObjectSchema → Unifying ObjectSchema
  | ⟨properties, required, additional, patterns, names⟩ => do
    let properties ← Schema.unifyFields preserveUnions properties
    let additional ← Additional.unify preserveUnions additional
    let patterns ← Schema.unifyFields preserveUnions patterns
    pure ⟨properties, required, additional, patterns, names⟩

/-- Work out the compositions in what holds for undeclared properties. -/
def Additional.unify (preserveUnions : Bool) : Additional → Unifying Additional
  | .schema value => do
    let value ← Schema.unify preserveUnions value
    pure (.schema value)
  | other => pure other

/-- Work out the compositions in schemas. -/
def Schema.unifyItems (preserveUnions : Bool) : List Schema → Unifying (List Schema)
  | [] => pure []
  | schema :: rest => do
    let unified ← Schema.unify preserveUnions schema
    let others ← Schema.unifyItems preserveUnions rest
    pure (unified :: others)

/-- Work out the compositions in the schemas that are no acknowledgments, and
drop the others. -/
def Schema.unifyPayloads (preserveUnions : Bool) : List Schema → Unifying (List Schema)
  | [] => pure []
  | schema :: rest =>
    if schema.isAcknowledgment then Schema.unifyPayloads preserveUnions rest
    else do
      let unified ← Schema.unify preserveUnions schema
      let others ← Schema.unifyPayloads preserveUnions rest
      pure (unified :: others)

/-- Work out the compositions in named schemas. -/
def Schema.unifyFields (preserveUnions : Bool) :
    List (String × Schema) → Unifying (List (String × Schema))
  | [] => pure []
  | (name, schema) :: rest => do
    let unified ← Schema.unify preserveUnions schema
    let others ← Schema.unifyFields preserveUnions rest
    pure ((name, unified) :: others)

end

/-- Combine a list of schemas, each unified first.  In a union acknowledgments
do not take part. -/
def combine (preserveUnions : Bool) (mode : Mode) (schemas : List Schema) : Unifying Schema :=
  match mode with
  | .all => do
    let unified ← Schema.unifyItems preserveUnions schemas
    ExceptT.mk (pure (Schema.intersectAll unified))
  | .any => do
    let unified ← Schema.unifyPayloads preserveUnions schemas
    unitePayloads schemas unified

end RpcSchema
