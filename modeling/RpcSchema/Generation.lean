import RpcSchema.Declaration.Order
import RpcSchema.Dereference
import RpcSchema.Document.Method
import RpcSchema.Projection
import RpcSchema.Promotion
import RpcSchema.Unification.Composition

/-!
# Generation

The way from a document to declarations: every named schema, and every parameter
and result of a method, is dereferenced, read, unified and promoted; then the
schemas are put in order and projected.

A run keeps one registry of synthesized schemas.  What is registered on the way
to a failure stays registered.  Its document is one from outside the store:
documents are read beside the bundles.

## Main definitions

* `Run` — the document, the store and the treatment of unions of one run.
* `resolveTarget` — the canonical JSON of a schema or a method.
* `projectTarget` — its projection.
* `Resolution`, `Run.resolveModule` — what resolving leaves of a module.
* `generateModule`, `generateModules` — everything in a module, failures listed.
* `projectTargetBy`, `generateModuleBy` — the same, with any way to find components.
-/

namespace RpcSchema

/-- What to resolve in a module. -/
inductive RunTarget
  /-- The named schema with a key or title. -/
  | schema (name : String)
  /-- The method of a name. -/
  | method (name : String)
  deriving DecidableEq, Repr

/-- A projected named schema. -/
structure Declaration where
  name : String
  typeRef : String
  description : Option String
  shape : Shape

/-- A projected parameter or result. -/
structure ProjectedParam where
  name : String
  required : Bool
  summary : Option String
  typeRef : String
  shape : Shape

/-- A projected method. -/
structure ProjectedMethod where
  name : String
  summary : Option String
  event : Bool
  params : List ProjectedParam
  result : Option ProjectedParam

/-- The projection of a target, with the synthesized schemas it refers to. -/
inductive Projected
  | schema (declaration : Declaration) (supporting : List Declaration)
  | method (method : ProjectedMethod) (supporting : List Declaration)

/-- Everything generated for a module. -/
structure ModuleOutput where
  /-- The title of the module. -/
  module : String
  declarations : List Declaration
  methods : List ProjectedMethod
  /-- The schemas and methods that failed. -/
  errors : List Report

/-! ### Resolving -/

/-- What a run works with. -/
structure Run where
  document : Document
  store : Store
  preserveUnions : Bool

/-- Steps of a run: they register schemas and may fail. -/
abbrev Resolving := ExceptT Failure (StateM Registry)

/-- A method with resolved schemas. -/
structure ResolvedMethod where
  placed : PlacedMethod
  params : List (Descriptor × Schema)
  result : Option (Descriptor × Schema)

namespace Run

/-- The registry that a run starts with: the names that the module declares are
reserved. -/
def registry (run : Run) : Registry :=
  .reserving (run.document.named.flatMap fun entry =>
    (entry.node.stringField? "title").toList ++ [entry.name])

/-- Dereference and read the schema at a pointer. -/
def parsed (run : Run) (value : Json) (pointer : String) : Except Failure Schema := do
  let result ← run.store.dereferenceAt .standard value run.document pointer
  (Schema.ofJson result.schema pointer).mapError (.malformedSchema run.document.title)

/-- Dereference, read and unify the schema at a pointer: the schema as read, and
the unified one. -/
def canonical (run : Run) (value : Json) (pointer : String) : Resolving (Schema × Schema) := do
  let schema ← ExceptT.mk (pure (run.parsed value pointer))
  let unified ← (schema.unify run.preserveUnions).adapt (.ofConflict run.document.title pointer)
  pure (schema, unified)

/-- Resolve a named schema and promote what it holds. -/
def resolveNamed (run : Run) (entry : NamedNode) : Resolving NamedSchema := do
  let (schema, unified) ← run.canonical entry.node entry.pointer
  let name := unified.title.getD entry.name
  let promoted ← ExceptT.lift ((unified.withTitle name).promote name)
  pure ((NamedSchema.of name promoted).withDependenciesOf schema)

/-- Resolve a parameter or result of a method and promote it. -/
def resolveDescriptor (run : Run) (method : Method) (descriptor : Descriptor) (pointer : String) :
    Resolving (Descriptor × Schema) := do
  let (_, unified) ← run.canonical descriptor.schema pointer
  let lifted ← ExceptT.lift (unified.lift (nestedName method.name descriptor.name))
  pure (descriptor, lifted)

/-- Resolve parameters; `index` is the position of the first. -/
def resolveParams (run : Run) (placed : PlacedMethod) :
    Nat → List Descriptor → Resolving (List (Descriptor × Schema))
  | _, [] => pure []
  | index, param :: rest => do
    let resolved ← run.resolveDescriptor placed.method param (placed.paramPointer index)
    let others ← run.resolveParams placed (index + 1) rest
    pure (resolved :: others)

/-- Resolve the schemas of a method. -/
def resolveMethod (run : Run) (placed : PlacedMethod) : Resolving ResolvedMethod := do
  let params ← run.resolveParams placed 0 placed.method.params
  let result ← placed.method.result.mapM fun result =>
    run.resolveDescriptor placed.method result placed.resultPointer
  pure ⟨placed, params, result⟩

end Run

/-! ### Projecting -/

namespace Projector

/-- Project a named schema. -/
def declare (projector : Projector) (named : NamedSchema) : Except Failure Declaration := do
  let typeRef ← projector.typeRef named.schema
  let shape ← projector.shape named.schema
  pure ⟨named.name, typeRef, named.schema.description, shape⟩

/-- Project synthesized schemas, in order of declaration, with a way to find the components of
the graph of dependencies. -/
def declareAllBy (findComponents : Nat → List (Nat × Nat) → List (List Nat))
    (projector : Projector) (entries : Fields Schema) : Except Failure (List Declaration) :=
  (orderBy findComponents (entries.map fun entry => .of entry.1 entry.2)).mapM fun named =>
    (projector.atPath (Reference.toComponent named.name)).declare named

/-- The projector in or out of event context. -/
def inEventContext (projector : Projector) (event : Bool) : Projector :=
  { projector with options := { projector.options with eventContext := event } }

/-- Project a parameter or result. -/
def param (projector : Projector) (descriptor : Descriptor) (required : Bool) (schema : Schema) :
    Except Failure ProjectedParam := do
  let typeRef ← projector.typeRef schema
  let shape ← projector.useShape schema
  pure ⟨descriptor.name, required, descriptor.summary, typeRef, shape⟩

/-- Project parameters; `index` is the position of the first. -/
def params (projector : Projector) (placed : PlacedMethod) :
    Nat → List (Descriptor × Schema) → Except Failure (List ProjectedParam)
  | _, [] => pure []
  | index, (descriptor, schema) :: rest => do
    let projected ← (projector.atPath (placed.paramPointer index)).param descriptor
      descriptor.required schema
    let others ← projector.params placed (index + 1) rest
    pure (projected :: others)

/-- Project a method.  Parameters are never in event context; the result of an
event is its payload, in event context. -/
def method (projector : Projector) (resolved : ResolvedMethod) :
    Except Failure ProjectedMethod := do
  let placed := resolved.placed
  let event := placed.method.isEvent
  let params ← (projector.inEventContext false).params placed 0 resolved.params
  let results := (projector.inEventContext (event || projector.options.eventContext)).atPath
    placed.resultPointer
  let result ← resolved.result.mapM fun (descriptor, schema) =>
    results.param descriptor true (if event then schema.eventPayload else schema)
  pure ⟨placed.method.name, placed.method.summary, event, params, result⟩

end Projector

/-! ### Single targets -/

/-- The named schema that goes by a name. -/
def findSchema (document : Document) (name : String) : Except Failure NamedNode :=
  match document.find? name with
  | some entry => .ok entry
  | none => .error (.unknownTarget document.title name)

/-- The methods of a document. -/
def documentMethods (document : Document) : Except Failure (List PlacedMethod) :=
  document.methods.mapError .invalidDocument

/-- The method of a name. -/
def findMethod (document : Document) (name : String) : Except Failure PlacedMethod := do
  let methods ← documentMethods document
  match methods.find? fun placed => placed.method.name = name with
  | some placed => .ok placed
  | none => .error (.unknownTarget document.title name)

/-- The canonical JSON of parameters; `index` is the position of the first. -/
def canonicalParams (run : Run) (placed : PlacedMethod) :
    Nat → List Descriptor → Resolving (List Json)
  | _, [] => pure []
  | index, param :: rest => do
    let (_, unified) ← run.canonical param.schema (placed.paramPointer index)
    let others ← canonicalParams run placed (index + 1) rest
    pure (.object [("name", .string param.name), ("required", .bool param.required),
      ("schema", unified.toJson)] :: others)

/-- The canonical JSON of the schemas of a method. -/
def canonicalMethod (run : Run) (placed : PlacedMethod) : Resolving Json := do
  let params ← canonicalParams run placed 0 placed.method.params
  let result ← placed.method.result.mapM fun result => do
    let (_, unified) ← run.canonical result.schema placed.resultPointer
    pure (Json.object [("name", .string result.name), ("schema", unified.toJson)])
  pure (.object [("name", .string placed.method.name), ("params", .array params),
    ("result", result.getD .null)])

/-- The canonical JSON of a target: references inlined and compositions worked
out, nothing promoted. -/
def resolveTarget (run : Run) (target : RunTarget) : Except Failure Json :=
  match target with
  | .schema name => do
    let entry ← findSchema run.document name
    let (_, unified) ← ((run.canonical entry.node entry.pointer).run run.registry).1
    pure unified.toJson
  | .method name => do
    let placed ← findMethod run.document name
    ((canonicalMethod run placed).run run.registry).1

/-- The run that a profile asks for. -/
def Run.forProfile (document : Document) (store : Store) (profile : Profile) : Run :=
  ⟨document, store, profile.unions⟩

/-- The projector at the root of a document. -/
def Projector.atRoot (document : Document) (store : Store) (profile : Profile)
    (options : ProjectionOptions) : Projector :=
  ⟨profile, options, store, document, "#"⟩

/-- The projection of a target, with a way to find the components of the graph of
dependencies. -/
def projectTargetBy (findComponents : Nat → List (Nat × Nat) → List (List Nat))
    (document : Document) (store : Store) (target : RunTarget) (profile : Profile)
    (options : ProjectionOptions) : Except Failure Projected :=
  let run := Run.forProfile document store profile
  let projector := Projector.atRoot document store profile options
  match target with
  | .schema name => do
    let entry ← findSchema document name
    let (result, registry) := (run.resolveNamed entry).run run.registry
    let named ← result
    let declaration ← (projector.atPath entry.pointer).declare named
    let supporting ← projector.declareAllBy findComponents registry.entries
    pure (.schema declaration supporting)
  | .method name => do
    let placed ← findMethod document name
    let (result, registry) := (run.resolveMethod placed).run run.registry
    let resolved ← result
    let method ← projector.method resolved
    let supporting ← projector.declareAllBy findComponents registry.entries
    pure (.method method supporting)

/-- The projection of a target. -/
def projectTarget (document : Document) (store : Store) (target : RunTarget) (profile : Profile)
    (options : ProjectionOptions) : Except Failure Projected :=
  projectTargetBy Order.stronglyConnected document store target profile options

/-! ### Modules -/

/-- What succeeded in a list of steps and what failed. -/
structure Outcomes (α : Type) where
  results : List α
  errors : List Report

/-- Try every item; a failed one is reported, for the method it names if any. -/
def tryEach {α β : Type} (method? : α → Option String) (step : α → Except Failure β)
    (items : List α) : Outcomes β :=
  let outcomes := items.map fun item => (method? item, step item)
  ⟨outcomes.filterMap fun outcome => outcome.2.toOption,
    outcomes.filterMap fun
      | (method, .error failure) => some (.ofFailure failure method)
      | (_, .ok _) => none⟩

/-- Try every item in turn, with one registry; a failed one is reported, for the
method it names if any. -/
def resolveEach {α β : Type} (method? : α → Option String) (step : α → Resolving β) :
    List α → StateM Registry (Outcomes β)
  | [] => pure ⟨[], []⟩
  | item :: rest => do
    let result ← (step item).run
    let others ← resolveEach method? step rest
    match result with
    | .ok value => pure { others with results := value :: others.results }
    | .error failure =>
      pure { others with errors := .ofFailure failure (method? item) :: others.errors }

/-- A resolved named schema and the pointer to its source. -/
structure LocatedSchema where
  pointer : String
  named : NamedSchema

/-- What resolving leaves of a module. -/
structure Resolution where
  schemas : Outcomes LocatedSchema
  methods : Outcomes ResolvedMethod
  /-- The synthesized schemas. -/
  registry : Registry

namespace Run

/-- Resolve a named schema; its pointer is kept. -/
def resolveLocated (run : Run) (entry : NamedNode) : Resolving LocatedSchema := do
  let named ← run.resolveNamed entry
  pure ⟨entry.pointer, named⟩

/-- Resolve the named schemas of the document, and then the methods. -/
def resolveModule (run : Run) (methods : List PlacedMethod) : Resolution :=
  let (schemas, registry) :=
    (resolveEach (fun _ => none) run.resolveLocated run.document.named).run run.registry
  let (methods, registry) :=
    (resolveEach (fun placed => some placed.method.name) run.resolveMethod methods).run registry
  ⟨schemas, methods, registry⟩

end Run

namespace Resolution

/-- All schemas to be declared: the resolved ones of the document, then the synthesized
ones. -/
def named (resolution : Resolution) : List NamedSchema :=
  resolution.schemas.results.map LocatedSchema.named ++
    resolution.registry.entries.map fun entry => .of entry.1 entry.2

/-- Where a schema to be declared stands: where the last schema of its name in the
document stands, or else in the registry. -/
def pointerTo (resolution : Resolution) (name : String) : String :=
  let pointers := resolution.schemas.results.foldl
    (fun pointers located => Fields.set pointers located.named.name located.pointer) []
  (Fields.get? pointers name).getD (Reference.toComponent name)

end Resolution

/-- Everything in a module whose methods are read, or are not for a reason that is
reported; with a way to find the components of the graph of dependencies. -/
def generateMethods (findComponents : Nat → List (Nat × Nat) → List (List Nat))
    (document : Document) (store : Store) (profile : Profile) (options : ProjectionOptions)
    (methods : List PlacedMethod) (unreadable : List Report) : ModuleOutput :=
  let projector := Projector.atRoot document store profile options
  let resolution := (Run.forProfile document store profile).resolveModule methods
  let declared := tryEach (fun _ => none)
    (fun named => (projector.atPath (resolution.pointerTo named.name)).declare named)
    (orderBy findComponents resolution.named)
  let projected := tryEach (fun resolved : ResolvedMethod => some resolved.placed.method.name)
    projector.method resolution.methods.results
  ⟨document.title, declared.results, projected.results,
    resolution.schemas.errors ++ unreadable ++ resolution.methods.errors ++ declared.errors
      ++ projected.errors⟩

/-- Everything in a module, with a way to find the components of the graph of
dependencies.  Methods that cannot be read are left out together. -/
def generateModuleBy (findComponents : Nat → List (Nat × Nat) → List (List Nat))
    (document : Document) (store : Store) (profile : Profile) (options : ProjectionOptions) :
    ModuleOutput :=
  match documentMethods document with
  | .ok methods => generateMethods findComponents document store profile options methods []
  | .error failure =>
    generateMethods findComponents document store profile options [] [.ofFailure failure none]

/-- Everything in a module. -/
def generateModule (document : Document) (store : Store) (profile : Profile)
    (options : ProjectionOptions) : ModuleOutput :=
  generateModuleBy Order.stronglyConnected document store profile options

/-- Everything in several modules, each on its own. -/
def generateModules (documents : List Document) (store : Store) (profile : Profile)
    (options : ProjectionOptions) : List ModuleOutput :=
  documents.map fun document => generateModule document store profile options

end RpcSchema
