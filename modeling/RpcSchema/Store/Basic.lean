import RpcSchema.Document.Basic

/-!
# Stores of bundles

A document is worked on in the company of bundles, each registered under an id.
A reference without an id, or with the id of the document it stands in, points
into that document, any other into the bundle of its id.

Where a document stands, not what it holds, tells it apart from others.  The
document worked on may be one of the bundles; a document from outside the store is
none of them, even when a bundle looks the same.

## Main definitions

* `Store`, `Store.register` — bundles by id.
* `Origin`, `Source` — where a document stands.
* `Store.Context` — a document to work on.
* `Store.locate?`, `Store.lookup` — the target of a reference.
* `Store.owner?` — the module that declares a name.
-/

namespace RpcSchema

/-- Where a document stands. -/
inductive Origin
  /-- It is no bundle: it is worked on from outside the store. -/
  | context
  /-- It is the bundle registered under an id. -/
  | bundle (id : String)
  deriving DecidableEq, Repr

/-- A document and where it stands. -/
@[ext] structure Source where
  origin : Origin
  document : Document

/-- A document from outside the store, as a source. -/
def Document.asContext (document : Document) : Source := ⟨.context, document⟩

/-- What a reference points to: a part of a document. -/
structure Target where
  source : Source
  /-- The way to the part from the root of the document. -/
  steps : List Step
  node : Json

/-- Bundles by id, in order of registration. -/
structure Store where
  bundles : Fields Document
  /-- Every bundle has the id under which it is registered. -/
  id_eq : ∀ entry ∈ bundles, entry.2.id = some entry.1

namespace Store

/-- A store without bundles. -/
def empty : Store := ⟨[], by simp⟩

/-- Register a bundle under an id, in the place of an earlier bundle of that id. -/
def register (store : Store) (id : String) (document : Document) : Store where
  bundles := Fields.set store.bundles id (document.withId id)
  id_eq := by
    intro entry hentry
    rcases Fields.mem_set hentry with rfl | h
    · rfl
    · exact store.id_eq entry h

/-- Register a bundle under the id it states, or else under its title. -/
def registerStated (store : Store) (document : Document) : Store :=
  store.register (document.id.getD document.title) document

/-- The bundle of an id. -/
def bundle? (store : Store) (id : String) : Option Document := Fields.get? store.bundles id

/-- A document to work on: one from outside the store, or a bundle. -/
structure Context (store : Store) extends Source where
  /-- What stands where a bundle does is that bundle. -/
  held : ∀ id, toSource.origin = .bundle id → store.bundle? id = some toSource.document

instance {store : Store} : CoeOut store.Context Source := ⟨Context.toSource⟩

/-- A document from outside the store, to work on. -/
def Context.own {store : Store} (document : Document) : store.Context :=
  ⟨document.asContext, fun _ h => nomatch h⟩

instance {store : Store} : Coe Document store.Context := ⟨Context.own⟩

/-- The bundle of an id, to work on. -/
def contextOf? (store : Store) (id : String) : Option store.Context :=
  match h : store.bundle? id with
  | some document => some ⟨⟨.bundle id, document⟩, fun _ h' => Origin.bundle.inj h' ▸ h⟩
  | none => none

/-- The document that a reference with an optional id points into, from a
document. -/
def source? (store : Store) (within : Source) : Option String → Option Source
  | none => some within
  | some id =>
    if within.document.id = some id then some within
    else (store.bundle? id).map fun document => ⟨.bundle id, document⟩

/-- The documents in reach from a document. -/
def sources (store : Store) (within : Source) : List Source :=
  within :: store.bundles.map fun entry => ⟨.bundle entry.1, entry.2⟩

/-- The target of a reference that stands in a document. -/
def locate? (store : Store) (reference : String) (within : Source) : Option Target :=
  let (id, fragment) := Reference.split reference
  (store.source? within id).bind fun source =>
    (source.document.root.locate? fragment).map fun found => ⟨source, found.1, found.2⟩

/-- The target of a reference that stands in a document: the document it points
into and the part of it. -/
def lookup (store : Store) (reference : String) (within : Source) : Option (Source × Json) :=
  (store.locate? reference within).map fun target => (target.source, target.node)

/-- The group of the context document that holds a schema of a name. -/
def groupOf? (context : Document) (title : String) : Option String :=
  (context.groups.find? fun group =>
    group.2.any fun entry => entry.1 = title || entry.2.stringField? "title" = some title).map
    Prod.fst

/-- The title of the module that declares a named schema: the context document,
one of its groups, or the first bundle that does. -/
def owner? (store : Store) (title : String) (context : Document) : Option String :=
  if context.declares title then some context.title
  else
    (groupOf? context title).or
      ((store.bundles.find? fun entry => entry.2.declares title).map fun entry => entry.2.title)

end Store

end RpcSchema
