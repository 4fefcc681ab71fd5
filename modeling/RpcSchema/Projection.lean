import RpcSchema.Failure
import RpcSchema.Identifier
import RpcSchema.Profile
import RpcSchema.Schema.Acknowledgment
import RpcSchema.Shape
import RpcSchema.Store.Basic
import RpcSchema.Template

/-!
# Projection

A schema is rendered in a target language in two ways: as a type reference for
the places where it is used, and as a shape for the place where it is declared.
A schema with a title is named at its uses; with named schemas inlined it is
spelled out instead, but never within itself.

Projection fails in one way only, on an array by position in a language without
tuples, unless its items are all alike or it may be rendered as an array of
anything.

## Main definitions

* `ProjectionOptions`, `Projector` — how to render, and where.
* `Projector.typeRef` — the type reference of a schema.
* `Projector.shape`, `Projector.useShape` — its shape at its declaration and at a
  use.
-/

namespace RpcSchema

/-- How schemas are rendered. -/
structure ProjectionOptions where
  /-- Render arrays by position whose items are alike as plain arrays. -/
  tuplesAsArrays : Bool
  /-- Render the payload of unions, and proxies for primitive types. -/
  eventContext : Bool
  /-- Spell anonymous enumerations out in type references. -/
  expandEnums : Bool
  /-- Names for primitive types in event context. -/
  proxies : Primitive → Option String
  /-- Spell named schemas out where they are used. -/
  inlineNamed : Bool
  /-- Render other arrays by position as arrays of anything where the language
  has no tuples. -/
  degradeTuples : Bool

namespace ProjectionOptions

/-- Enumerations are spelled out, and nothing else is asked for. -/
def standard : ProjectionOptions where
  tuplesAsArrays := false
  eventContext := false
  expandEnums := true
  proxies := fun _ => none
  inlineNamed := false
  degradeTuples := false

/-- Name a proxy for a primitive type. -/
def withProxy (options : ProjectionOptions) (p : Primitive) (name : String) : ProjectionOptions :=
  { options with proxies := fun q => if q = p then some name else options.proxies q }

end ProjectionOptions

/-- What schemas are rendered with, and the path that failures give. -/
structure Projector where
  profile : Profile
  options : ProjectionOptions
  store : Store
  context : Document
  path : String

/-- How an array by position is rendered. -/
inductive TupleForm
  /-- As an array of its first item. -/
  | sequence
  | tuple
  /-- As an array of anything. -/
  | degraded
  deriving DecidableEq, Repr

namespace Projector

/-- The projector at another path. -/
def atPath (projector : Projector) (path : String) : Projector := { projector with path }

/-! ### Texts -/

/-- A template of the profile. -/
def template (projector : Projector) (kind : TemplateKind) : String :=
  projector.profile.template kind

/-- A template of the profile with values inserted. -/
def filled (projector : Projector) (kind : TemplateKind) (values : List (String × String)) :
    String :=
  fill (projector.template kind) values

/-- The name of a type, qualified when another module declares it. -/
def qualify (projector : Projector) (name : String) : String :=
  match projector.store.owner? name projector.context with
  | some owner =>
    if owner = projector.context.title then name
    else projector.filled .qualified [("module", owner), ("type", name)]
  | none => name

/-- The name of a primitive type. -/
def primitiveName (projector : Projector) (p : Primitive) : String :=
  let proxy? := if projector.options.eventContext then projector.options.proxies p else none
  proxy?.getD (projector.profile.primitive p)

/-- A value as a literal. -/
def literal (projector : Projector) (value : Json) : String :=
  projector.filled .literal [("value", value.compact)]

/-- The type of arrays of a type. -/
def arrayOf (projector : Projector) (element : String) : String :=
  projector.filled .array [("type", element)]

/-- The union of types. -/
def unionOfTypes (projector : Projector) (branches : List String) : String :=
  projector.filled .union
    [("types", String.intercalate (projector.template .unionSeparator) branches)]

/-- The type of arrays by position. -/
def tupleOf (projector : Projector) (elements : List String) : String :=
  projector.filled .tuple
    [("types", String.intercalate (projector.template .tupleSeparator) elements)]

/-- The type of objects with the given fields. -/
def objectOf (projector : Projector) (fields : List String) : String :=
  projector.filled .object
    [("fields", String.intercalate (projector.template .fieldSeparator) fields)]

/-- A field of an object type. -/
def fieldOf (projector : Projector) (required : Bool) (name typeRef : String) : String :=
  projector.filled (if required then .field else .optionalField)
    [("name", name), ("type", typeRef)]

/-- The type of the values of properties whose names are not fixed, from the types
that such properties may have. -/
def valueType (projector : Projector) : List String → String
  | [] => projector.template .any
  | [single] => single
  | many => projector.unionOfTypes many

/-- The type of the names of such properties. -/
def keyType (projector : Projector) : Option (List String) → String
  | some names => projector.unionOfTypes (names.map fun name => projector.literal (.string name))
  | none => projector.primitiveName .string

/-! ### Arrays by position -/

/-- Whether all items are alike in shape and title; false of no items. -/
def alike : List Schema → Bool
  | [] => false
  | first :: rest => rest.all fun item => item.kind == first.kind && item.title = first.title

/-- How an array by position is rendered. -/
def tupleForm (projector : Projector) (items : List Schema) : Except Failure TupleForm :=
  if alike items && (projector.options.tuplesAsArrays || !projector.profile.tuples) then
    .ok .sequence
  else if projector.profile.tuples then .ok .tuple
  else if projector.options.degradeTuples then .ok .degraded
  else .error (.unsupportedTuple projector.context.title projector.path .mixed)

/-! ### Type references -/

/-- The type reference of a schema named by its title, if it is: references and
constants are not. -/
def nameRef? (projector : Projector) : Option String → Kind → Option String
  | _, .ref _ => none
  | _, .const _ => none
  | title, _ => title.map projector.qualify

mutual

/-- The type reference of a schema. -/
def typeRef (projector : Projector) : Schema → Except Failure String
  | ⟨title, _, kind, _⟩ =>
    match projector.nameRef? title kind with
    | some name => .ok name
    | none => kindRef projector kind

/-- The type reference of a shape without a name. -/
def kindRef (projector : Projector) : Kind → Except Failure String
  | .ref reference => .ok (projector.qualify (Reference.name reference))
  | .const value => .ok (projector.literal value)
  | .enum type values =>
    if projector.options.expandEnums then
      .ok (projector.unionOfTypes (values.map projector.literal))
    else
      match type with
      | some p => .ok (projector.primitiveName p)
      | none => .ok (projector.template .any)
  | .object shape => objectRef projector shape
  | .list => .ok (projector.arrayOf (projector.template .any))
  | .listOf item => do
    let element ← typeRef projector item
    .ok (projector.arrayOf element)
  | .tuple items => do
    match ← projector.tupleForm items with
    | .sequence =>
      let element ← headRef projector items
      .ok (projector.arrayOf element)
    | .tuple =>
      let elements ← typeRefs projector items
      .ok (projector.tupleOf elements)
    | .degraded => .ok (projector.arrayOf (projector.template .any))
  | .anyOf branches =>
    if projector.options.eventContext then payloadRef projector branches
    else do
      let refs ← typeRefs projector branches
      .ok (projector.unionOfTypes refs)
  | .allOf _ => .ok (projector.template .void)
  | .primitive type => .ok (projector.primitiveName type)
  | .empty => .ok (projector.template .void)
  | .never => .ok (projector.template .never)

/-- The type reference of an object without a name. -/
def objectRef (projector : Projector) : ObjectSchema → Except Failure String
  | ⟨properties, required, additional, patterns, names⟩ =>
    if ObjectSchema.isDynamic ⟨properties, required, additional, patterns, names⟩ then do
      let first ← additionalRefs projector additional
      let others ← patternRefs projector additional.schema?.toList patterns
      .ok (projector.filled .map
        [("key", projector.keyType names), ("type", projector.valueType (first ++ others))])
    else do
      let fields ← fieldRefs projector required properties
      .ok (projector.objectOf fields)

/-- The type references of undeclared properties, at most one. -/
def additionalRefs (projector : Projector) : Additional → Except Failure (List String)
  | .schema value => do
    let ref ← typeRef projector value
    .ok [ref]
  | _ => .ok []

/-- The type references of pattern properties whose schemas are not among those
seen. -/
def patternRefs (projector : Projector) (seen : List Schema) :
    List (String × Schema) → Except Failure (List String)
  | [] => .ok []
  | (_, schema) :: rest =>
    if seen.contains schema then patternRefs projector seen rest
    else do
      let ref ← typeRef projector schema
      let refs ← patternRefs projector (seen ++ [schema]) rest
      .ok (ref :: refs)

/-- The fields of an object type. -/
def fieldRefs (projector : Projector) (required : List String) :
    List (String × Schema) → Except Failure (List String)
  | [] => .ok []
  | (name, schema) :: rest => do
    let ref ← typeRef projector schema
    let fields ← fieldRefs projector required rest
    .ok (projector.fieldOf (required.contains name) name ref :: fields)

/-- The type references of schemas. -/
def typeRefs (projector : Projector) : List Schema → Except Failure (List String)
  | [] => .ok []
  | schema :: rest => do
    let ref ← typeRef projector schema
    let refs ← typeRefs projector rest
    .ok (ref :: refs)

/-- The type reference of the first schema. -/
def headRef (projector : Projector) : List Schema → Except Failure String
  | [] => .ok (projector.template .any)
  | schema :: _ => typeRef projector schema

/-- The type reference of the payload among branches. -/
def payloadRef (projector : Projector) : List Schema → Except Failure String
  | [] => .ok (projector.template .void)
  | branch :: rest =>
    if branch.isAcknowledgment then payloadRef projector rest else typeRef projector branch

end

/-! ### Shapes -/

/-- The shape of anything. -/
def anyShape (projector : Projector) : Shape := .any (projector.template .any)

/-- The shape of no result. -/
def voidShape (projector : Projector) : Shape := .void (projector.template .void)

/-- The shape of a reference.  One with a title names a declared schema, any other
was left in place by dereferencing. -/
def referenceShape (projector : Projector) (title : Option String) (reference : String) : Shape :=
  match title with
  | some title => .reference title (projector.qualify title)
  | none => .forward (Reference.name reference) (projector.qualify (Reference.name reference))

/-- The shape of a constant. -/
def constantShape (projector : Projector) (value : Json) : Shape :=
  .constant value (projector.literal value)

/-- The shape of an enumeration: constants for strings, a union of literals for
other values. -/
def enumShape (projector : Projector) (type : Option Primitive) (values : List Json) : Shape :=
  if Kind.isStringEnum (.enum type values) then
    .enumeration ((values.filterMap Json.string?).map fun value => ⟨enumKey value, value⟩)
  else
    let branches := values.map projector.literal
    .union branches (projector.unionOfTypes branches)

/-- Whether a titled schema is named rather than spelled out below the top. -/
def isNamed (projector : Projector) (visiting : List String) (title : String) : Bool :=
  !projector.options.inlineNamed || visiting.contains title

mutual

/-- The shape of a schema.  `visiting` are the titles being spelled out, and `top`
tells that the schema is at its declaration. -/
def expand (projector : Projector) (visiting : List String) (top : Bool) :
    Schema → Except Failure Shape
  | ⟨title, _, kind, _⟩ =>
    match title, kind with
    -- References and constants never stand for a declaration of their own.
    | title, .ref reference => .ok (projector.referenceShape title reference)
    | _, .const value => .ok (projector.constantShape value)
    | some title, kind =>
      if !top && projector.isNamed visiting title then
        .ok (.reference title (projector.qualify title))
      else kindShape projector (title :: visiting) kind
    | none, kind => kindShape projector visiting kind

/-- The shape of the schema with a given kind. -/
def kindShape (projector : Projector) (visiting : List String) : Kind → Except Failure Shape
  | .ref reference => .ok (projector.referenceShape none reference)
  | .const value => .ok (projector.constantShape value)
  | .enum type values => .ok (projector.enumShape type values)
  | .object shape => objectShape projector visiting shape
  | .list => .ok (.array projector.anyShape (projector.arrayOf (projector.template .any)))
  | .listOf item => do
    let element ← expand projector visiting false item
    let ref ← projector.typeRef item
    .ok (.array element (projector.arrayOf ref))
  | .tuple items => do
    match ← projector.tupleForm items with
    | .sequence =>
      let element ← headShape projector visiting items
      let ref ← projector.headRef items
      .ok (.array element (projector.arrayOf ref))
    | .tuple =>
      let elements ← shapes projector visiting items
      let refs ← projector.typeRefs items
      .ok (.tuple elements (projector.tupleOf refs))
    | .degraded => .ok (.array projector.anyShape (projector.arrayOf (projector.template .any)))
  | .anyOf branches =>
    if projector.options.eventContext then payloadShape projector visiting branches
    else do
      let refs ← projector.typeRefs branches
      .ok (.union refs (projector.unionOfTypes refs))
  | .allOf _ => .ok projector.voidShape
  | .primitive type => .ok (.primitive (projector.primitiveName type))
  | .empty => .ok projector.voidShape
  | .never => .ok (.never (projector.template .never))

/-- The shape of an object: its properties, and one type for the properties whose
names are not fixed. -/
def objectShape (projector : Projector) (visiting : List String) :
    ObjectSchema → Except Failure Shape
  | ⟨declared, required, additional, patterns, names⟩ => do
    let properties ← propertyShapes projector visiting required declared
    let first ← projector.additionalRefs additional
    let others ← projector.patternRefs additional.schema?.toList patterns
    match first ++ others, names with
    | [], none => .ok (.object properties none)
    | [], names =>
      .ok (.object properties (some ⟨names, projector.valueType [], projector.anyShape⟩))
    | [single], names =>
      -- The lone type comes from the undeclared properties, or else from a pattern.
      let shape ← match additional with
        | .schema value => expand projector visiting false value
        | _ => patternShape projector visiting patterns
      .ok (.object properties (some ⟨names, single, shape⟩))
    | refs, names =>
      let type := projector.valueType refs
      .ok (.object properties (some ⟨names, type, .union refs type⟩))

/-- The shape of the first pattern property. -/
def patternShape (projector : Projector) (visiting : List String) :
    List (String × Schema) → Except Failure Shape
  | [] => .ok projector.anyShape
  | (_, schema) :: _ => expand projector visiting false schema

/-- The shapes of properties. -/
def propertyShapes (projector : Projector) (visiting : List String) (required : List String) :
    List (String × Schema) → Except Failure (List Property)
  | [] => .ok []
  | (name, schema) :: rest => do
    let ref ← projector.typeRef schema
    let shape ← expand projector visiting false schema
    let properties ← propertyShapes projector visiting required rest
    .ok (⟨name, required.contains name, schema.description, ref, shape⟩ :: properties)

/-- The shapes of schemas. -/
def shapes (projector : Projector) (visiting : List String) :
    List Schema → Except Failure (List Shape)
  | [] => .ok []
  | schema :: rest => do
    let shape ← expand projector visiting false schema
    let others ← shapes projector visiting rest
    .ok (shape :: others)

/-- The shape of the first schema. -/
def headShape (projector : Projector) (visiting : List String) :
    List Schema → Except Failure Shape
  | [] => .ok projector.anyShape
  | schema :: _ => expand projector visiting false schema

/-- The shape of the payload among branches. -/
def payloadShape (projector : Projector) (visiting : List String) :
    List Schema → Except Failure Shape
  | [] => .ok projector.voidShape
  | branch :: rest =>
    if branch.isAcknowledgment then payloadShape projector visiting rest
    else expand projector visiting false branch

end

/-- The shape of a schema at its declaration. -/
def shape (projector : Projector) (schema : Schema) : Except Failure Shape :=
  projector.expand [] true schema

/-- The shape of a schema where it is used. -/
def useShape (projector : Projector) (schema : Schema) : Except Failure Shape :=
  projector.expand [] false schema

end Projector

end RpcSchema
