import RpcSchema.Registry
import RpcSchema.Identifier
import RpcSchema.Schema.Acknowledgment

/-!
# Promotion

Anonymous objects with properties and anonymous enumerations of strings are
taken out of the schemas that hold them, registered under a name made from the
way to them, and replaced by a reference.  A schema with a title is declared on
its own, so what it holds is left alone.

## Main definitions

* `Schema.isPromotable` — the schemas that are given a name.
* `Schema.promote` — promote what a named schema holds.
* `Schema.lift` — promote a schema itself.
-/

namespace RpcSchema

/-- Whether an untitled schema is given a name of its own. -/
def Schema.isPromotable (schema : Schema) : Bool :=
  !schema.isAcknowledgment &&
    match schema.kind with
    | .object shape => !shape.properties.isEmpty
    | _ => schema.isStringEnum

mutual

/-- Promote a schema, to be called `name`, when it is anonymous: register it, or
else promote what it holds. -/
def Schema.lift (name : String) : Schema → StateM Registry Schema
  | ⟨title, description, kind, extra⟩ => do
    if title.isSome then pure ⟨title, description, kind, extra⟩
    else
      let promotable := Schema.isPromotable ⟨title, description, kind, extra⟩
      let kind ← Kind.promote name name kind
      if promotable then
        let registered ← modifyGet fun registry : Registry =>
          registry.insert name ⟨some name, description, kind, extra⟩
        pure (Schema.registered registered)
      else pure ⟨none, description, kind, extra⟩

/-- Promote what a shape holds.  Parts of an object are named after `owner`, those
of arrays and compositions take the name `hint`. -/
def Kind.promote (owner hint : String) : Kind → StateM Registry Kind
  | .object shape => do
    let shape ← ObjectSchema.promote owner shape
    pure (.object shape)
  | .listOf item => do
    let item ← Schema.lift hint item
    pure (.listOf item)
  | .tuple items => do
    let items ← Schema.liftTuple hint 0 items
    pure (.tuple items)
  | .allOf parts => do
    let parts ← Schema.liftItems hint parts
    pure (.allOf parts)
  | .anyOf branches => do
    let branches ← Schema.liftItems hint branches
    pure (.anyOf branches)
  | kind => pure kind

/-- Promote what an object holds: properties are named after their keys, values
of other properties are called values. -/
def ObjectSchema.promote (owner : String) : ObjectSchema → StateM Registry ObjectSchema
  | ⟨properties, required, additional, patterns, names⟩ => do
    let properties ← Schema.liftProperties owner properties
    let additional ← Additional.promote owner additional
    let patterns ← Schema.liftValues owner patterns
    pure ⟨properties, required, additional, patterns, names⟩

/-- Promote the schema of undeclared properties. -/
def Additional.promote (owner : String) : Additional → StateM Registry Additional
  | .schema value => do
    let value ← Schema.lift (nestedName owner "value") value
    pure (.schema value)
  | other => pure other

/-- Promote schemas that share a name. -/
def Schema.liftItems (name : String) : List Schema → StateM Registry (List Schema)
  | [] => pure []
  | schema :: rest => do
    let lifted ← Schema.lift name schema
    let others ← Schema.liftItems name rest
    pure (lifted :: others)

/-- Promote schemas by position; `index` is that of the first. -/
def Schema.liftTuple (name : String) (index : Nat) : List Schema → StateM Registry (List Schema)
  | [] => pure []
  | schema :: rest => do
    let lifted ← Schema.lift (name ++ toString index) schema
    let others ← Schema.liftTuple name (index + 1) rest
    pure (lifted :: others)

/-- Promote properties. -/
def Schema.liftProperties (owner : String) :
    List (String × Schema) → StateM Registry (List (String × Schema))
  | [] => pure []
  | (key, schema) :: rest => do
    let lifted ← Schema.lift (nestedName owner key) schema
    let others ← Schema.liftProperties owner rest
    pure ((key, lifted) :: others)

/-- Promote the values of patterns. -/
def Schema.liftValues (owner : String) :
    List (String × Schema) → StateM Registry (List (String × Schema))
  | [] => pure []
  | (pattern, schema) :: rest => do
    let lifted ← Schema.lift (nestedName owner "value") schema
    let others ← Schema.liftValues owner rest
    pure ((pattern, lifted) :: others)

end

/-- Promote what a schema called `name` holds; the schema itself stays. -/
def Schema.promote (name : String) (schema : Schema) : StateM Registry Schema := do
  let kind ← Kind.promote (schema.title.getD name) name schema.kind
  pure { schema with kind }

end RpcSchema
