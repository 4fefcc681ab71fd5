import RpcSchema.Store.Basic
import RpcSchema.Distinct
import RpcSchema.Failure

/-!
# Dereferencing

References in a value are replaced by what they point to.  Keywords beside a
reference belong to the document it stands in and are laid over its target.
Content of a bundle is dereferenced in that bundle, whoever inlines it.

Every reference has a *canonical* form: the fragment alone when it points into
the document worked on, the bundle's id and the fragment otherwise.  The document
worked on may be a bundle itself; then what points into it from other bundles has
the fragment alone as its canonical form, too.  A reference
is left in place, in canonical form, when expanding it would never end: it points
to a whole document, to a target that is being expanded already, or to a named
schema that encloses it.  While values are walked such references are marked by a
keyword of their own, so that they are not taken for references again.

Optionally references within the document worked on are kept, and references
into bundles are turned into local ones, whose targets are copied.

The walk is by recursion on the value, for a given way of treating the targets of
references; `walkWithin` treats targets by the same walk one level down.  No
canonical reference is expanded within itself, so there are no more levels than
references in all documents, and the bound that `dereferenceAt` gives is never
met.

## Main definitions

* `DereferenceOptions` — which references are kept.
* `Dereferenced` — the result, with the references left in place.
* `Store.dereferenceAt`, `Store.dereference` — dereference a value.
* `Store.localize` — copy what a document refers to in bundles into it.
-/

namespace RpcSchema

/-- Which references are kept. -/
structure DereferenceOptions where
  /-- Keep references within the document worked on. -/
  externalOnly : Bool
  /-- Turn references into bundles into local ones and copy their targets. -/
  localizeExternal : Bool
  deriving DecidableEq, Repr

namespace DereferenceOptions

/-- Keep no reference. -/
def standard : DereferenceOptions := ⟨false, false⟩

end DereferenceOptions

/-- A reference left in place. -/
structure BrokenCycle where
  /-- The pointer to it in the result. -/
  path : String
  /-- Its canonical form. -/
  reference : String
  deriving DecidableEq, Repr

/-- A value without references but for those left in place. -/
structure Dereferenced where
  schema : Json
  unresolved : List BrokenCycle
  /-- Copies of schemas from bundles, by name. -/
  components : Fields Json

/-! ### Keywords -/

/-- The keyword that marks a reference left in place. -/
def markerKeyword : String := "$unresolved"

/-- Keywords whose values are data and hold no references. -/
def dataKeywords : List String := ["examples", "default", "const", "enum"]

/-- Whether the value of a keyword is left as it is. -/
def isOpaqueKeyword (keyword : String) : Bool :=
  keyword = "$ref" || dataKeywords.contains keyword

/-- The reference that members make. -/
def referenceOf? (fields : Fields Json) : Option String :=
  (Fields.get? fields "$ref").bind Json.string?

mutual

/-- The texts of all references in a value. -/
def Json.references : Json → List String
  | .object fields => (referenceOf? fields).toList ++ Json.referencesFields fields
  | .array items => Json.referencesItems items
  | _ => []

/-- The texts of all references in items. -/
def Json.referencesItems : List Json → List String
  | [] => []
  | item :: rest => Json.references item ++ Json.referencesItems rest

/-- The texts of all references in members. -/
def Json.referencesFields : List (String × Json) → List String
  | [] => []
  | (_, value) :: rest => Json.references value ++ Json.referencesFields rest

end

/-! ### Laying keywords over a target -/

/-- A keyword that stands both beside a reference and in its target.  The one
beside the reference wins, but properties are put together, and so are required
names. -/
def overlayKeyword (keyword : String) (beside target : Json) : Json :=
  match keyword, beside, target with
  | "properties", .object mine, .object theirs =>
    .object (mine.foldl (fun merged entry => Fields.set merged entry.1 entry.2) theirs)
  | "required", .array mine, .array theirs => .array (unionOf theirs mine)
  | _, beside, _ => beside

/-- Put one keyword of a target under the keywords beside the reference. -/
def overlayMember (fields : Fields Json) (entry : String × Json) : Fields Json :=
  match Fields.get? fields entry.1 with
  | some beside => Fields.set fields entry.1 (overlayKeyword entry.1 beside entry.2)
  | none => fields ++ [entry]

/-- Lay the keywords beside a reference over its target.  A target that is no
object stands only when there is nothing beside the reference. -/
def overlayTarget (beside : Fields Json) (target : Json) : Json :=
  match target with
  | .object fields => .object (fields.foldl overlayMember beside)
  | other => if beside.isEmpty then other else .object beside

/-! ### Markers -/

/-- Turn the marker among members back into a reference. -/
def restoreMarker (fields : Fields Json) : Fields Json :=
  match Fields.get? fields markerKeyword with
  | some reference => Fields.set (Fields.swapErase fields markerKeyword) "$ref" reference
  | none => fields

mutual

/-- Turn the markers in a value back into references. -/
def Json.restoreMarkers : Json → Json
  | .object fields => .object (restoreMarker (Json.restoreMarkersFields fields))
  | .array items => .array (Json.restoreMarkersItems items)
  | value => value

/-- Turn the markers in items back into references. -/
def Json.restoreMarkersItems : List Json → List Json
  | [] => []
  | item :: rest => Json.restoreMarkers item :: Json.restoreMarkersItems rest

/-- Turn the markers in members back into references. -/
def Json.restoreMarkersFields : List (String × Json) → List (String × Json)
  | [] => []
  | (name, value) :: rest => (name, Json.restoreMarkers value) :: Json.restoreMarkersFields rest

end

/-! ### The walk -/

/-- What stays the same during a walk. -/
structure WalkSetting where
  store : Store
  options : DereferenceOptions

/-- Where a walk is. -/
structure Frame where
  /-- Where the document worked on stands. -/
  home : Origin
  /-- The document that the walked value stands in. -/
  source : Source
  /-- The pointer to the value in the result. -/
  path : String
  /-- The canonical references being expanded. -/
  expanding : List String
  /-- The canonical references to the enclosing named schemas. -/
  named : List String

/-- What a walk leaves behind besides the value. -/
structure WalkLog where
  unresolved : List BrokenCycle
  components : Fields Json

/-- Nothing left behind yet. -/
def WalkLog.empty : WalkLog := ⟨[], []⟩

/-- The result of a walk: what it made of the value, with the markers turned back
into references, and what it left behind. -/
def Dereferenced.ofWalk (walked : Json × WalkLog) : Dereferenced where
  schema := walked.1.restoreMarkers
  unresolved := walked.2.unresolved
  components := Fields.mapValues Json.restoreMarkers walked.2.components

/-- Steps of a walk. -/
abbrev Walking := StateT WalkLog (Except Failure)

/-- The canonical form of the reference to a fragment of a document, where the document
worked on stands at `home`. -/
def Source.canonical (source : Source) (home : Origin) (fragment : String) : String :=
  if source.origin = home then fragment else source.document.id.getD "" ++ fragment

/-- The canonical form of a reference that has this target. -/
def Target.canonical (target : Target) (home : Origin) (reference : String) : String :=
  target.source.canonical home (Reference.fragment reference)

/-- The canonical reference to the named schema that an object is taken for: the one
of its document that goes by the object's title. -/
def Source.namedKey? (source : Source) (home : Origin) (fields : Fields Json) : Option String :=
  let title := (Fields.get? fields "title").bind Json.string?
  (title.bind source.document.pointerOf?).map (source.canonical home)

namespace Frame

/-- The frame of a value that stands at a path of the document worked on. -/
def start (context : Source) (path : String) : Frame := ⟨context.origin, context, path, [], []⟩

/-- The frame of the part at a pointer. -/
def goTo (frame : Frame) (path : String) : Frame := { frame with path }

/-- The frame of a member. -/
def member (frame : Frame) (name : String) : Frame := frame.goTo (Pointer.child frame.path name)

/-- The frame of an item. -/
def item (frame : Frame) (index : Nat) : Frame := frame.goTo (Pointer.item frame.path index)

/-- The frame within the members of an object. -/
def enter (frame : Frame) (fields : Fields Json) : Frame :=
  { frame with named := (frame.source.namedKey? frame.home fields).toList ++ frame.named }

/-- The frame within the target of a reference. -/
def expand (frame : Frame) (source : Source) (key : String) : Frame :=
  { frame with source, expanding := key :: frame.expanding }

end Frame

namespace Walk

/-- Leave a reference in place. -/
def leave (frame : Frame) (key : String) (beside : Fields Json) : Walking Json := do
  modify fun log => { log with unresolved := log.unresolved ++ [⟨frame.path, key⟩] }
  pure (.object (Fields.set beside markerKeyword (.string key)))

/-- The name under which a target in a bundle is copied: its last segment, or the
title of the bundle for a whole bundle. -/
def componentName (target : Target) (fragment : String) : String :=
  if fragment = "#" then target.source.document.title else Reference.name fragment

/-- What becomes of a reference that has a target. -/
inductive Treatment
  /-- It is kept as it is written. -/
  | keep
  /-- It is turned into a local one, and its target copied under a name. -/
  | copy (name : String)
  /-- It is left in place, in canonical form. -/
  | leave
  /-- It gives way to its target. -/
  | inline
  deriving DecidableEq, Repr

/-- How a reference to a target is treated. -/
def treatment (options : DereferenceOptions) (frame : Frame) (reference : String)
    (target : Target) : Treatment :=
  let isContext := target.source.origin = frame.home
  let fragment := Reference.fragment reference
  let key := target.canonical frame.home reference
  if options.externalOnly && isContext then .keep
  else if options.localizeExternal && !isContext then .copy (componentName target fragment)
  -- A whole document is never inlined, whether or not it is being expanded.
  else if fragment = "#" || frame.expanding.contains key || frame.named.contains key then .leave
  else .inline

/-- Copy a target unless there is a copy of its name, or one in the making. -/
def copy (inline : Frame → Json → Walking Json) (frame : Frame) (target : Target)
    (name key : String) : Walking Unit := do
  let log ← get
  if Fields.contains log.components name || frame.expanding.contains key then pure ()
  else
    let pointer := Reference.toComponent name
    let copied ← inline ((frame.expand target.source key).goTo pointer) target.node
    modify fun log => { log with components := Fields.set log.components name copied }

/-- Replace a reference that has a target.  `fields` are the members of the
object that makes the reference, dereferenced but for the reference itself, and
`inline` dereferences targets. -/
def replace (setting : WalkSetting) (inline : Frame → Json → Walking Json) (frame : Frame)
    (reference : String) (target : Target) (fields : Fields Json) : Walking Json := do
  let key := target.canonical frame.home reference
  match treatment setting.options frame reference target with
  | .keep => pure (.object fields)
  | .copy name => do
    copy inline frame target name key
    pure (.object (Fields.set fields "$ref" (.string (Reference.toComponent name))))
  | .leave => leave frame key (Fields.swapErase fields "$ref")
  | .inline => do
    let expanded ← inline (frame.expand target.source key) target.node
    pure (overlayTarget (Fields.swapErase fields "$ref") expanded)

/-- A reference without a target. -/
def missing (frame : Frame) (reference : String) : Failure :=
  .unresolvedReference frame.source.document.title frame.path reference

mutual

/-- Walk a value; `inline` dereferences targets. -/
def value (setting : WalkSetting) (inline : Frame → Json → Walking Json) (frame : Frame) :
    Json → Walking Json
  | .object fields =>
    match referenceOf? fields with
    | some reference =>
      match setting.store.locate? reference frame.source with
      | none => throw (missing frame reference)
      | some target => do
        -- What stands beside a reference is walked before its target.
        let fields ← members setting inline frame fields
        replace setting inline frame reference target fields
    | none => do
      let fields ← members setting inline (frame.enter fields) fields
      pure (.object fields)
  | .array items => do
    let items ← Walk.items setting inline frame 0 items
    pure (.array items)
  | other => pure other

/-- Walk the members of an object but for those that hold data. -/
def members (setting : WalkSetting) (inline : Frame → Json → Walking Json) (frame : Frame) :
    List (String × Json) → Walking (Fields Json)
  | [] => pure []
  | (name, part) :: rest => do
    let walked ←
      if isOpaqueKeyword name then pure part
      else value setting inline (frame.member name) part
    let others ← members setting inline frame rest
    pure ((name, walked) :: others)

/-- Walk items; `index` is the position of the first. -/
def items (setting : WalkSetting) (inline : Frame → Json → Walking Json) (frame : Frame)
    (index : Nat) : List Json → Walking (List Json)
  | [] => pure []
  | item :: rest => do
    let walked ← value setting inline (frame.item index) item
    let others ← items setting inline frame (index + 1) rest
    pure (walked :: others)

end

end Walk

/-- Walk a value, expanding references within references at most `depth` times.
Deeper values stay as they are. -/
def walkWithin (setting : WalkSetting) : Nat → Frame → Json → Walking Json
  | 0, _, value => pure value
  | depth + 1, frame, value => Walk.value setting (walkWithin setting depth) frame value

/-! ### Results -/

namespace Store

/-- The number of references in a value and in all documents. -/
def referenceCount (store : Store) (context : Document) (node : Json) : Nat :=
  node.references.length + context.root.references.length
    + (store.bundles.flatMap fun entry => entry.2.root.references).length

/-- Dereference a value that stands at a path of a document. -/
def dereferenceAt (store : Store) (options : DereferenceOptions) (node : Json)
    (context : store.Context) (path : String) : Except Failure Dereferenced := do
  let depth := store.referenceCount context.document node + 1
  let walked ← (walkWithin ⟨store, options⟩ depth (.start context path) node).run .empty
  pure (.ofWalk walked)

/-- Dereference a value of a document. -/
def dereference (store : Store) (options : DereferenceOptions) (node : Json)
    (context : store.Context) : Except Failure Dereferenced :=
  store.dereferenceAt options node context "#"

end Store

/-- Add components to a document without replacing those it declares.  Nothing is
added where the document keeps something else in their place. -/
def insertComponents (components : Fields Json) (root : Json) : Json :=
  match root with
  | .object fields =>
    -- Without copies the document gets no empty component sections either.
    if components.isEmpty then root
    else
      match (Fields.get? fields "components").getD (.object []) with
      | .object parts =>
        match (Fields.get? parts "schemas").getD (.object []) with
        | .object schemas =>
          let schemas := components.foldl (fun all entry => Fields.add all entry.1 entry.2) schemas
          let parts := Fields.set parts "schemas" (.object schemas)
          .object (Fields.set fields "components" (.object parts))
        | _ => root
      | _ => root
  | _ => root

/-- The document with every reference into a bundle turned into one to a copy
among its own components. -/
def Store.localize (store : Store) (context : store.Context) : Except Failure Json := do
  let result ← store.dereference ⟨true, true⟩ context.document.root context
  pure (insertComponents result.components result.schema)

end RpcSchema
