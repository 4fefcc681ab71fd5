import RpcSchema.Json.Pointer
import RpcSchema.Json.Record
import RpcSchema.Reference

/-!
# Documents

A document is a module of methods or a bundle of schemas.  It has an id, if it
states one, and a title, and keeps named schemas in two places.

## Main definitions

* `Document`, `Document.ofJson` — documents, with the faults of those refused.
* `Document.named` — the named schemas.
* `Document.pointerOf?`, `Document.pointerOfKey?` — where a named schema stands.
* `Document.groups` — schemas grouped under the names of other modules.
-/

namespace RpcSchema

/-- What makes a document or a profile unusable. -/
inductive DocumentFault
  | notAnObject
  | untitled
  /-- A method is not shaped like one. -/
  | method (document : String) (index : Nat) (fault : RecordFault)
  /-- A profile is not shaped like one. -/
  | profile (fault : RecordFault)

/-- The wording of a fault. -/
def DocumentFault.message : DocumentFault → String
  | .notAnObject => "document must be a JSON object"
  | .untitled => "document has no info.title, title or $id"
  | .method document index fault =>
    document ++ ": method " ++ toString index ++ ": " ++ fault.message
  | .profile fault => "invalid profile: " ++ fault.message

/-- A module of methods or a bundle of schemas. -/
structure Document where
  /-- The id that references use. -/
  id : Option String
  title : String
  root : Json

/-- A named schema of a document. -/
structure NamedNode where
  name : String
  pointer : String
  node : Json

namespace NamedNode

/-- Whether the schema goes by a name, its key or its title. -/
def goesBy (entry : NamedNode) (title : String) : Bool :=
  entry.name = title || entry.node.stringField? "title" = some title

end NamedNode

namespace Document

/-- The members that lead to the named schemas. -/
def containers : List (List String) := [["components", "schemas"], ["definitions"]]

/-- The pointers to the named schemas. -/
def containerPointers : List String := [Reference.componentsPointer, "#/definitions"]

/-- Change the members of the object at the end of a path of members.  Nothing
changes when there is none. -/
def modifyMembers (change : Fields Json → Fields Json) : List String → Json → Json
  | [], .object fields => .object (change fields)
  | name :: rest, .object fields =>
    match Fields.get? fields name with
    | some value => .object (Fields.set fields name (modifyMembers change rest value))
    | none => .object fields
  | _, value => value

/-- A named schema with its name as title, unless it has one. -/
def giveTitle (name : String) : Json → Json
  | .object fields => .object (Fields.add fields "title" (.string name))
  | value => value

/-- Give every named schema a title. -/
def giveTitles (root : Json) : Json :=
  containers.foldl (fun root path =>
    modifyMembers (fun fields => fields.map fun entry => (entry.1, giveTitle entry.1 entry.2))
      path root) root

/-- The title that a document states: that of its information block, or else its
own. -/
def statedTitle? (root : Json) : Option String :=
  (((root.field? "info").bind fun info => info.field? "title").or (root.field? "title")).bind
    Json.string?

/-- Read a document.  The id stands in for a missing title. -/
def ofJson (root : Json) : Except DocumentFault Document :=
  if !root.isObject then .error .notAnObject
  else
    let id := root.stringField? "$id"
    match (statedTitle? root).or id with
    | some title => .ok ⟨id, title, giveTitles root⟩
    | none => .error .untitled

/-- The document under another id. -/
def withId (document : Document) (id : String) : Document := { document with id := some id }

/-- The named schemas, in order. -/
def named (document : Document) : List NamedNode :=
  containerPointers.flatMap fun container =>
    match document.root.navigate? container with
    | some (.object fields) =>
      fields.map fun entry => ⟨entry.1, Pointer.child container entry.1, entry.2⟩
    | _ => []

/-- The first named schema that goes by a name. -/
def find? (document : Document) (title : String) : Option NamedNode :=
  document.named.find? fun entry => entry.goesBy title

/-- The pointer to the first named schema that goes by a name. -/
def pointerOf? (document : Document) (title : String) : Option String :=
  (document.find? title).map NamedNode.pointer

/-- The pointer to the first named schema with a key. -/
def pointerOfKey? (document : Document) (key : String) : Option String :=
  (document.named.find? fun entry => entry.name = key).map NamedNode.pointer

/-- Whether a named schema goes by a name. -/
def declares (document : Document) (title : String) : Bool := (document.find? title).isSome

/-- The groups of schemas that the document attributes to other modules. -/
def groups (document : Document) : List (String × Fields Json) :=
  match document.root.field? "x-schemas" with
  | some (.object groups) =>
    groups.filterMap fun group => group.2.object?.map fun schemas => (group.1, schemas)
  | _ => []

end Document

end RpcSchema
