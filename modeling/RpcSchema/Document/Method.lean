import RpcSchema.Document.Basic

/-!
# Methods

The methods that a module declares, with the schemas of their parameters and
results.  A method tagged `event` delivers its result through a subscription.

## Main definitions

* `Method`, `Descriptor` — methods, and their parameters and results.
* `Method.isEvent` — whether a method is an event.
* `Document.methods` — the methods of a document.
-/

namespace RpcSchema

/-- A parameter or a result: a name and a schema. -/
structure Descriptor where
  name : String
  required : Bool
  summary : Option String
  schema : Json

/-- A method. -/
structure Method where
  name : String
  summary : Option String
  params : List Descriptor
  result : Option Descriptor
  /-- The names of the tags. -/
  tags : List String

namespace Descriptor

/-- How a parameter or result is written. -/
def shape : RecordShape Descriptor where
  name := "ContentDescriptor"
  blank := ⟨"", false, none, .null⟩
  fields :=
    [⟨"name", true, fun value record =>
        (Reading.text value).map fun name => { record with name }⟩,
      ⟨"required", false, fun value record =>
        (Reading.flag value).map fun required => { record with required }⟩,
      ⟨"summary", false, fun value record =>
        (Reading.optional Reading.text value).map fun summary => { record with summary }⟩,
      ⟨"schema", false, fun value record =>
        (Reading.any value).map fun schema => { record with schema }⟩]

end Descriptor

/-- How a tag is written; its name is all that counts. -/
def tagShape : RecordShape String where
  name := "Tag"
  blank := ""
  fields := [⟨"name", true, fun value _ => Reading.text value⟩]

namespace Method

/-- How a method is written. -/
def shape : RecordShape Method where
  name := "Method"
  blank := ⟨"", none, [], none, []⟩
  fields :=
    [⟨"name", true, fun value record =>
        (Reading.text value).map fun name => { record with name }⟩,
      ⟨"summary", false, fun value record =>
        (Reading.optional Reading.text value).map fun summary => { record with summary }⟩,
      ⟨"params", false, fun value record =>
        (Reading.list Descriptor.shape.read value).map fun params => { record with params }⟩,
      ⟨"result", false, fun value record =>
        (Reading.optional Descriptor.shape.read value).map fun result => { record with result }⟩,
      ⟨"tags", false, fun value record =>
        (Reading.list tagShape.read value).map fun tags => { record with tags }⟩]

/-- Whether the method is an event. -/
def isEvent (method : Method) : Bool := method.tags.contains "event"

end Method

/-- A method and its position in its document. -/
structure PlacedMethod where
  index : Nat
  method : Method

namespace PlacedMethod

/-- The pointer to the schema of a parameter. -/
def paramPointer (placed : PlacedMethod) (index : Nat) : String :=
  "#/methods/" ++ toString placed.index ++ "/params/" ++ toString index ++ "/schema"

/-- The pointer to the schema of the result. -/
def resultPointer (placed : PlacedMethod) : String :=
  "#/methods/" ++ toString placed.index ++ "/result/schema"

end PlacedMethod

namespace Document

/-- Read methods; `index` is the position of the first. -/
def readMethods (document : Document) : Nat → List Json → Except DocumentFault (List PlacedMethod)
  | _, [] => .ok []
  | index, value :: rest =>
    match Method.shape.read value with
    | .error fault => .error (.method document.title index fault)
    | .ok method => (document.readMethods (index + 1) rest).map (⟨index, method⟩ :: ·)

/-- The methods of a document.  One that is not shaped like a method spoils them
all. -/
def methods (document : Document) : Except DocumentFault (List PlacedMethod) :=
  match document.root.field? "methods" with
  | some (.array values) => document.readMethods 0 values
  | _ => .ok []

end Document

end RpcSchema
