import RpcSchema.Store.Basic
import RpcSchema.Distinct

/-!
# Properties by path

The schema of a property is found along a dotted path of property names:
references are followed, an intersection is searched part by part, and in an
object a name stands for a declared property, or one whose pattern it matches,
or one that is not declared.

Whether a name matches a pattern is left to a parameter, `matching`.

Chains of references may run in circles, so a chain is followed only as long as
it meets references it has not met before.  Nested intersections without an end
are cut off after as many steps as there are intersections.

## Main definitions

* `Store.follow?` — the end of a chain of references.
* `Store.propertySchema?` — the schema at a dotted path.
* `Store.propertyNames?` — the names of the properties of an object.
-/

namespace RpcSchema

/-! ### Places of references -/

mutual

/-- The ways to the objects in a value that satisfy a test on their members.
`way` leads to the value, in reverse. -/
def Json.objectsWith (test : Fields Json → Bool) (way : List Step) : Json → List (List Step)
  | .object fields =>
    (if test fields then [way.reverse] else []) ++ Json.objectsWithFields test way fields
  | .array items => Json.objectsWithItems test way 0 items
  | _ => []

/-- The ways to such objects in items; `index` is that of the first item. -/
def Json.objectsWithItems (test : Fields Json → Bool) (way : List Step) (index : Nat) :
    List Json → List (List Step)
  | [] => []
  | item :: rest =>
    Json.objectsWith test (.item index :: way) item
      ++ Json.objectsWithItems test way (index + 1) rest

/-- The ways to such objects in members. -/
def Json.objectsWithFields (test : Fields Json → Bool) (way : List Step) :
    List (String × Json) → List (List Step)
  | [] => []
  | (name, value) :: rest =>
    Json.objectsWith test (.member name :: way) value ++ Json.objectsWithFields test way rest

end

/-- The reference that a schema stands for. -/
def Json.reference? (node : Json) : Option String := node.stringField? "$ref"

/-- Whether the members make a reference. -/
def holdsReference (fields : Fields Json) : Bool :=
  ((Fields.get? fields "$ref").bind Json.string?).isSome

/-- Whether the members make an intersection. -/
def holdsIntersection (fields : Fields Json) : Bool :=
  ((Fields.get? fields "allOf").bind Json.array?).isSome

/-- A place in a document. -/
structure Place where
  origin : Origin
  steps : List Step
  deriving DecidableEq

namespace Target

/-- The place of a target. -/
def place (target : Target) : Place := ⟨target.source.origin, target.steps⟩

end Target

namespace Store

/-- The places of the objects in reach that satisfy a test on their members. -/
def placesWith (store : Store) (test : Fields Json → Bool) (within : Source) : List Place :=
  (store.sources within).flatMap fun source =>
    (source.document.root.objectsWith test []).map fun steps => ⟨source.origin, steps⟩

/-! ### Chains of references -/

/-- Follow a chain of references whose members lie at places not met before. -/
def followUnmet (store : Store) (unmet : List Place) (within : Source) (node : Json) :
    Option (Source × Json) :=
  match node.reference? with
  | none => some (within, node)
  | some reference =>
    match store.locate? reference within with
    | none => none
    | some target =>
      if target.node.reference?.isNone then some (target.source, target.node)
      else if _h : target.place ∈ unmet then
        followUnmet store (unmet.erase target.place) target.source target.node
      else none
termination_by unmet.length
decreasing_by
  have := List.length_erase_of_mem _h
  have := List.length_pos_of_mem _h
  omega

/-- The end of the chain of references that starts at a schema.  None when a
reference has no target or the chain runs in a circle. -/
def follow? (store : Store) (within : Source) (node : Json) : Option (Source × Json) :=
  store.followUnmet (store.placesWith holdsReference within) within node

end Store

/-! ### Objects -/

/-- Whether a schema is that of an object: its `type` is or lists `object`. -/
def Json.isObjectSchema (node : Json) : Bool :=
  match node.field? "type" with
  | some (.string type) => type = "object"
  | some (.array types) => types.any fun type => type == .string "object"
  | _ => false

/-- The schema of the property of a name.  `matching` tells whether a name matches
a pattern. -/
def propertyBelow? (matching : String → String → Bool) (node : Json) (name : String) :
    Option Json :=
  let declared := (node.field? "properties").bind fun properties => properties.field? name
  let matched := ((node.field? "patternProperties").bind Json.object?).bind fun patterns =>
    (patterns.find? fun entry => matching entry.1 name).map Prod.snd
  let undeclared := (node.field? "additionalProperties").filter Json.isObject
  (declared.or matched).or undeclared

namespace Store

/-- Search along a path.  `limit` bounds the nesting of intersections, and
`budget` what is left of it at the current object. -/
def descend (store : Store) (matching : String → String → Bool) (limit budget : Nat)
    (segments : List String) (within : Source) (node : Json) : Option (Source × Json) :=
  match store.follow? within node with
  | none => none
  | some (source, node) =>
    match segments with
    | [] => some (source, node)
    | segment :: rest =>
      if segment.isEmpty then some (source, node)
      else if node.isObjectSchema then
        match propertyBelow? matching node segment with
        | none => none
        | some part => store.descend matching limit limit rest source part
      else
        match node.field? "allOf", budget with
        | some (.array parts), budget + 1 =>
          parts.findSome? fun part =>
            store.descend matching limit budget (segment :: rest) source part
        | _, _ => none
termination_by (segments.length, budget)

/-- The schema of the property at a dotted path.  An empty segment ends the
search where it is. -/
def propertySchema? (store : Store) (matching : String → String → Bool) (node : Json)
    (path : String) (within : Source) : Option (Source × Json) :=
  let limit := (store.placesWith holdsIntersection within).length
    + (node.objectsWith holdsIntersection []).length
  store.descend matching limit limit (splitText '.' path) within node

/-- The names that restrict property names, listed directly or by enumeration. -/
def listedNames (node : Json) : List String :=
  let listed := match node.field? "propertyNames" with
    | some (.array names) => names
    | some (.object constraint) => ((Fields.get? constraint "enum").bind Json.array?).getD []
    | _ => []
  listed.filterMap Json.string?

/-- The names of the properties of an object schema: those declared, then those
listed.  None when the schema is not that of an object. -/
def propertyNames? (store : Store) (node : Json) (within : Source) : Option (List String) :=
  (store.follow? within node).bind fun (_, node) =>
    if node.isObjectSchema then
      let declared := (((node.field? "properties").bind Json.object?).map Fields.keys).getD []
      some (unionOf declared (listedNames node))
    else none

end Store

end RpcSchema
