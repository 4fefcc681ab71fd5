import RpcSchema.Declaration.Dependency

/-!
# The order of declarations

Schemas are declared after the schemas they depend on.  Schemas that depend on
each other in a circle form a component of the graph of dependencies, and are
declared together, sorted by name.  Among the components whose dependencies are
all declared, components of enumerations come first, and otherwise the component
with the earliest schema.

Schemas are addressed by their position in the list.  Where a name occurs twice,
dependencies on it mean the last schema of that name.  Components are addressed
by their position, too.  How they are found is left open; `stronglyConnected` is
one way.

## Main definitions

* `Order.edges` — the graph of dependencies.
* `Order.stronglyConnected` — the components of a graph.
* `Order.condense` — the graph of the components.
* `Order.schedule` — the components in order of declaration.
* `orderBy`, `order` — the schemas in order of declaration.
-/

namespace RpcSchema

namespace Order

/-! ### Sorting -/

/-- Insert a value behind those that it does not precede. -/
def insertBy {α : Type} (precedes : α → α → Bool) (value : α) : List α → List α
  | [] => [value]
  | first :: rest =>
    if precedes value first then value :: first :: rest
    else first :: insertBy precedes value rest

/-- Sort values; those that do not precede each other keep their order. -/
def sortBy {α : Type} (precedes : α → α → Bool) (values : List α) : List α :=
  values.foldl (fun sorted value => insertBy precedes value sorted) []

/-! ### Dependencies between positions -/

/-- The position of the last schema of a name. -/
def positionOf? (schemas : List NamedSchema) (name : String) : Option Nat :=
  (schemas.zipIdx.reverse.find? fun entry => entry.1.name = name).map Prod.snd

/-- The positions that the schema at a position depends on, its own excepted. -/
def prerequisites (schemas : List NamedSchema) (named : NamedSchema) (position : Nat) : List Nat :=
  (named.dependencies.filterMap (positionOf? schemas)).filter (· ≠ position)

/-- The edges from dependencies to dependents, each once. -/
def edges (schemas : List NamedSchema) : List (Nat × Nat) :=
  distinct (schemas.zipIdx.flatMap fun (named, position) =>
    (prerequisites schemas named position).map fun other => (other, position))

/-- The row of a position in a table. -/
def row (table : List (List Nat)) (position : Nat) : List Nat := (table[position]?).getD []

/-! ### Components of a graph -/

/-- The nodes that an edge leads to from one of some nodes. -/
def targets (edges : List (Nat × Nat)) (nodes : List Nat) : List Nat :=
  (edges.filter fun edge => nodes.contains edge.1).map Prod.snd

/-- The nodes that are reached from some nodes in at most `steps` steps. -/
def closure (edges : List (Nat × Nat)) : Nat → List Nat → List Nat
  | 0, reached => reached
  | steps + 1, reached =>
    let further := unionOf reached (targets edges reached)
    if further.length = reached.length then reached else closure edges steps further

/-- What each node below `count` reaches. -/
def reachTable (count : Nat) (edges : List (Nat × Nat)) : List (List Nat) :=
  (List.range count).map fun node => closure edges count [node]

/-- The nodes below `count` that a node reaches and that reach it. -/
def classOf (reach : List (List Nat)) (count node : Nat) : List Nat :=
  (List.range count).filter fun other =>
    (row reach node).contains other && (row reach other).contains node

/-- The classes of nodes below `count` that reach each other, each one at its first
member and from its last to its first. -/
def stronglyConnected (count : Nat) (edges : List (Nat × Nat)) : List (List Nat) :=
  let reach := reachTable count edges
  (List.range count).filterMap fun node =>
    let members := classOf reach count node
    if members.head? = some node then some members.reverse else none

/-! ### The graph of the components -/

/-- The component of a node. -/
def componentOf (components : List (List Nat)) (node : Nat) : Nat :=
  (components.findIdx? fun members => members.contains node).getD 0

/-- The graph of the components. -/
structure Condensation where
  /-- The components that edges lead to from each component, sorted and each once. -/
  successors : List (List Nat)
  /-- From how many components an edge leads to each component. -/
  indegrees : List Nat

namespace Condensation

/-- Components without edges. -/
def blank (count : Nat) : Condensation := ⟨List.replicate count [], List.replicate count 0⟩

/-- Add an edge between components unless it is there or leads back to where it
starts. -/
def link (condensation : Condensation) (edge : Nat × Nat) : Condensation :=
  let (source, target) := edge
  let known := row condensation.successors source
  if source = target || known.contains target then condensation
  else
    ⟨condensation.successors.set source (insertBy (fun a b => a < b) target known),
      condensation.indegrees.modify target (· + 1)⟩

end Condensation

/-- The graph of the components, from the graph of their members. -/
def condense (components : List (List Nat)) (edges : List (Nat × Nat)) : Condensation :=
  (edges.map fun edge => (componentOf components edge.1, componentOf components edge.2)).foldl
    Condensation.link (.blank components.length)

/-! ### The order of the components -/

/-- What is left to declare. -/
structure Agenda where
  /-- The components that may come next, the first one to be preferred. -/
  ready : List Nat
  /-- How many components each component still waits for. -/
  waits : List Nat

namespace Agenda

/-- How many components a component still waits for. -/
def wait (agenda : Agenda) (component : Nat) : Nat := (agenda.waits[component]?).getD 0

/-- A component waits for one component less, and is ready when that was the last
one. -/
def release (precedes : Nat → Nat → Bool) (agenda : Agenda) (component : Nat) : Agenda :=
  let left := agenda.wait component - 1
  ⟨if left = 0 then insertBy precedes component agenda.ready else agenda.ready,
    agenda.waits.set component left⟩

/-- To begin with, those components are ready that wait for nothing. -/
def initial (precedes : Nat → Nat → Bool) (indegrees : List Nat) : Agenda :=
  let free := (List.range indegrees.length).filter fun component =>
    indegrees[component]? = some 0
  ⟨sortBy precedes free, indegrees⟩

end Agenda

/-- Declare the component that comes first among those that are ready and release
its successors, again and again.  One component is declared in each round, so
there is need for as many rounds as components. -/
def schedule (precedes : Nat → Nat → Bool) (successors : List (List Nat)) :
    Nat → Agenda → List Nat
  | 0, _ => []
  | rounds + 1, agenda =>
    match agenda.ready with
    | [] => []
    | component :: others =>
      component :: schedule precedes successors rounds
        ((row successors component).foldl (Agenda.release precedes) ⟨others, agenda.waits⟩)

/-- What decides among components that are ready. -/
structure Key where
  /-- Whether some member is no enumeration. -/
  mixed : Bool
  /-- The first position. -/
  first : Nat
  component : Nat

/-- The key of a component.  One without members would come last. -/
def keyOf (schemas : List NamedSchema) (components : List (List Nat)) (component : Nat) : Key :=
  let members := row components component
  let mixed := members.any fun position =>
    !((schemas[position]?).map fun named => named.schema.isEnum).getD false
  ⟨mixed, members.min?.getD 18446744073709551615, component⟩

/-- Keys are compared field by field. -/
def Key.precedes (a b : Key) : Bool :=
  if a.mixed ≠ b.mixed then b.mixed
  else if a.first ≠ b.first then a.first < b.first
  else a.component < b.component

/-- The components in order of declaration. -/
def scheduled (schemas : List NamedSchema) (components : List (List Nat)) : List Nat :=
  let condensation := condense components (edges schemas)
  let precedes := fun a b => (keyOf schemas components a).precedes (keyOf schemas components b)
  schedule precedes condensation.successors components.length
    (.initial precedes condensation.indegrees)

/-! ### The order of the schemas -/

/-- The name of the schema at a position. -/
def nameAt (schemas : List NamedSchema) (position : Nat) : String :=
  ((schemas[position]?).map NamedSchema.name).getD ""

/-- Positions sorted by the names of their schemas. -/
def sortByName (schemas : List NamedSchema) (positions : List Nat) : List Nat :=
  sortBy (fun a b => nameAt schemas a < nameAt schemas b) positions

/-- Take what is in the slots at some positions.  A slot that was taken is empty. -/
def take {α : Type} : List (Option α) → List Nat → List α
  | _, [] => []
  | slots, position :: rest =>
    match slots[position]? with
    | some (some value) => value :: take (slots.set position none) rest
    | _ => take slots rest

end Order

/-- The schemas in order of declaration, with a way to find the components of the graph
with the nodes below a number and some edges. -/
def orderBy (findComponents : Nat → List (Nat × Nat) → List (List Nat))
    (schemas : List NamedSchema) : List NamedSchema :=
  let components := findComponents schemas.length (Order.edges schemas)
  let emitted := (Order.scheduled schemas components).flatMap fun component =>
    Order.sortByName schemas (Order.row components component)
  Order.take (schemas.map some) emitted

/-- The schemas in order of declaration. -/
def order (schemas : List NamedSchema) : List NamedSchema := orderBy Order.stronglyConnected schemas

end RpcSchema
