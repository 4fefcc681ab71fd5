import RpcSchema.Document.Basic
import RpcSchema.Primitive

/-!
# Language profiles

What a target language calls the primitive types, and the templates for its
other types.  Whatever a profile leaves out is as in TypeScript, except that a
primitive type keeps its own name once a profile lists any.

## Main definitions

* `TemplateKind` — what there are templates for.
* `Profile`, `Profile.typescript` — profiles, and the built-in one.
* `Profile.primitive`, `Profile.template` — what a profile says.
* `Profile.ofJson`, `Profile.toJson` — profiles as JSON.
-/

namespace RpcSchema

/-- What a profile has templates for. -/
inductive TemplateKind
  | array
  | tuple
  | tupleSeparator
  | union
  | unionSeparator
  | map
  | qualified
  | literal
  | object
  | field
  | optionalField
  | fieldSeparator
  | void
  | any
  | never
  deriving DecidableEq, Repr, Inhabited

namespace TemplateKind

/-- All kinds, in order. -/
def all : List TemplateKind :=
  [.array, .tuple, .tupleSeparator, .union, .unionSeparator, .map, .qualified, .literal, .object,
    .field, .optionalField, .fieldSeparator, .void, .any, .never]

/-- The name of a kind. -/
def name : TemplateKind → String
  | .array => "array"
  | .tuple => "tuple"
  | .tupleSeparator => "tupleSeparator"
  | .union => "union"
  | .unionSeparator => "unionSeparator"
  | .map => "map"
  | .qualified => "qualified"
  | .literal => "literal"
  | .object => "object"
  | .field => "field"
  | .optionalField => "optionalField"
  | .fieldSeparator => "fieldSeparator"
  | .void => "void"
  | .any => "any"
  | .never => "never"

/-- The template of TypeScript. -/
def standard : TemplateKind → String
  | .array => "$\x7btype\x7d[]"
  | .tuple => "[$\x7btypes\x7d]"
  | .tupleSeparator => ", "
  | .union => "$\x7btypes\x7d"
  | .unionSeparator => " | "
  | .map => "\x7b [key: $\x7bkey\x7d]: $\x7btype\x7d \x7d"
  | .qualified => "$\x7bmodule\x7d.$\x7btype\x7d"
  | .literal => "$\x7bvalue\x7d"
  | .object => "\x7b $\x7bfields\x7d \x7d"
  | .field => "$\x7bname\x7d: $\x7btype\x7d"
  | .optionalField => "$\x7bname\x7d?: $\x7btype\x7d"
  | .fieldSeparator => ", "
  | .void => "void"
  | .any => "any"
  | .never => "never"

end TemplateKind

/-- A language profile. -/
structure Profile where
  name : String
  primitives : Primitive → Option String
  templates : TemplateKind → Option String
  /-- Whether the language has types of arrays by position. -/
  tuples : Bool
  /-- Whether the language has union types. -/
  unions : Bool

namespace Profile

/-- What TypeScript calls a primitive type. -/
def typescriptName : Primitive → String
  | .string => "string"
  | .number => "number"
  | .integer => "number"
  | .boolean => "boolean"
  | .null => "null"

/-- The built-in profile. -/
def typescript : Profile where
  name := "typescript"
  primitives := fun p => some (typescriptName p)
  templates := fun kind => some kind.standard
  tuples := true
  unions := true

/-- The name of a primitive type. -/
def primitive (profile : Profile) (p : Primitive) : String := (profile.primitives p).getD p.name

/-- The template of a kind. -/
def template (profile : Profile) (kind : TemplateKind) : String :=
  (profile.templates kind).getD kind.standard

/-- Whether two profiles say the same. -/
def beq (a b : Profile) : Bool :=
  a.name = b.name && Primitive.all.all (fun p => a.primitives p = b.primitives p) &&
    TemplateKind.all.all (fun kind => a.templates kind = b.templates kind) &&
    a.tuples = b.tuples && a.unions = b.unions

instance : BEq Profile := ⟨beq⟩

/-! ### Profiles as JSON -/

/-- Read a table of texts whose keys are the names of `keys`. -/
def readTable {κ : Type} [DecidableEq κ] (keys : List κ) (name : κ → String) :
    Reading (κ → Option String) := fun value => do
  let members ← Reading.members value
  members.foldlM (fun table entry => do
    match keys.find? fun key => name key = entry.1 with
    | none => .error (.unknownName entry.1 (keys.map name))
    | some key =>
      let text ← Reading.text entry.2
      .ok fun other => if other = key then some text else table other) fun _ => none

/-- How a profile is written. -/
def shape : RecordShape Profile where
  name := "Profile"
  blank := typescript
  fields :=
    [⟨"name", false, fun value record =>
        (Reading.text value).map fun name => { record with name }⟩,
      ⟨"primitives", false, fun value record =>
        (readTable Primitive.all Primitive.name value).map fun primitives =>
          { record with primitives }⟩,
      ⟨"templates", false, fun value record =>
        (readTable TemplateKind.all TemplateKind.name value).map fun templates =>
          { record with templates }⟩,
      ⟨"tuples", false, fun value record =>
        (Reading.flag value).map fun tuples => { record with tuples }⟩,
      ⟨"unions", false, fun value record =>
        (Reading.flag value).map fun unions => { record with unions }⟩]

/-- Read a profile. -/
def ofJson (value : Json) : Except DocumentFault Profile :=
  (shape.read value).mapError .profile

/-- A table of texts as JSON. -/
def tableToJson {κ : Type} (keys : List κ) (name : κ → String) (table : κ → Option String) : Json :=
  .object (keys.filterMap fun key => (table key).map fun text => (name key, .string text))

/-- A profile as JSON. -/
def toJson (profile : Profile) : Json :=
  .object
    [("name", .string profile.name),
      ("primitives", tableToJson Primitive.all Primitive.name profile.primitives),
      ("templates", tableToJson TemplateKind.all TemplateKind.name profile.templates),
      ("tuples", .bool profile.tuples), ("unions", .bool profile.unions)]

end Profile

end RpcSchema
