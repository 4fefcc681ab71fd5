import RpcSchema.Unification.Basic
import RpcSchema.Registry
import RpcSchema.Identifier

/-!
# Collapsed unions

The union of two schemas as one schema, for targets without union types.
Schemas of one class are merged into a schema that accepts both; schemas of
different classes stay side by side as the branches of a union.  Two different
references are hidden behind a synthesized schema, registered under a name made
from theirs.

Titles and descriptions are taken from the right schema first; kept keywords
stay only where both schemas agree on them.

A merged schema may be merged again, so the depth of the recursion is not
bounded by the operands as they stand.  It is by the number of their nodes that
are no unions: merging never makes more of these, and each step down through an
object or an array uses two of them up.

## Main definitions

* `Unifying` — computations that register schemas and may end in a conflict.
* `Schema.sameClass` — whether two branches can be merged.
* `Schema.unite` — the union of two schemas.
* `Schema.uniteAll` — of a list.
-/

namespace RpcSchema

/-- Computations that register schemas and may end in a conflict.  What was
registered before a conflict stays registered. -/
abbrev Unifying := ExceptT Conflict (StateM Registry)

/-- Register a schema under a wanted name. -/
def Registry.register (name : String) (schema : Schema) : StateM Registry String :=
  modifyGet fun registry => registry.insert name schema

/-! ### Classes -/

/-- The primitive type of a scalar shape. -/
def Kind.scalarType? : Kind → Option Primitive
  | .primitive p => some p
  | .const value => Primitive.ofValue? value
  | .enum type values => type.or (Primitive.infer? values)
  | _ => none

/-- The family of a primitive type: integers count as numbers. -/
def Primitive.family : Primitive → Primitive
  | .integer => .number
  | p => p

/-- The family of a scalar shape. -/
def Kind.family? (kind : Kind) : Option Primitive := kind.scalarType?.map Primitive.family

namespace Schema

/-- Whether two branches of a union describe the same class of values and are
merged instead of listed side by side. -/
def sameClass (a b : Schema) : Bool :=
  match a.kind, b.kind with
  | .ref x, .ref y => x = y
  | .object _, .object _ => true
  | .list, .list => true
  | .list, .listOf _ => true
  | .listOf _, .list => true
  | .listOf _, .listOf _ => true
  | x, y =>
    match x.family?, y.family? with
    | some p, some q => p = q
    | _, _ => false

/-- The kept keywords on which both schemas agree. -/
def agreedExtra (a b : Schema) : Fields Json :=
  a.extra.filter fun entry =>
    match Fields.get? b.extra entry.1 with
    | some value => value == entry.2
    | none => false

end Schema

/-! ### Wrappers -/

/-- The longest common beginning of two texts. -/
def commonBeginning : List Char → List Char → List Char
  | c :: left, d :: right => if c = d then c :: commonBeginning left right else []
  | _, _ => []

/-- The name of the schema that hides two references: the common beginning of
their last segments followed by `Union`, or both names joined by `Or`. -/
def wrapperName (left right : String) : String :=
  let common := commonBeginning left.toList right.toList
  let stem := pascal (String.ofList (lastPiece '#' (lastPiece '/' common)))
  if stem.isEmpty then
    pascal (Reference.name left) ++ "Or" ++ pascal (Reference.name right)
  else stem ++ "Union"

/-- Register the union of two references and refer to it. -/
def wrapReferences (left right : String) : Unifying Schema := do
  let union := Schema.ofKind (.anyOf [Schema.reference left, Schema.reference right])
  let name ← Registry.register (wrapperName left right) union
  pure (Schema.registered name)

namespace Union

/-- Merge a schema into the first branch of its class, or append it. -/
def joinBranch (merge : Schema → Schema → Unifying Schema) (schema : Schema) :
    List Schema → Unifying (List Schema)
  | [] => pure [schema]
  | branch :: branches =>
    if branch.sameClass schema then do
      let merged ← merge branch schema
      pure (merged :: branches)
    else do
      let rest ← joinBranch merge schema branches
      pure (branch :: rest)

/-- The union of branches; a lone branch stands for itself. -/
def ofBranches : List Schema → Schema
  | [branch] => branch
  | branches => .ofKind (.anyOf branches)

/-- Merge schemas into the branches one after the other. -/
def joinBranches (merge : Schema → Schema → Unifying Schema) (branches incoming : List Schema) :
    Unifying Schema := do
  let joined ← incoming.foldlM (fun branches schema => joinBranch merge schema branches) branches
  pure (ofBranches joined)

/-- Properties of either side, those of both merged. -/
def properties (merge : Schema → Schema → Unifying Schema) :
    Fields Schema → Fields Schema → Unifying (Fields Schema)
  | [], right => pure right
  | (name, a) :: left, right =>
    match Fields.extract? right name with
    | some (b, others) => do
      let merged ← merge a b
      let rest ← properties merge left others
      pure ((name, merged) :: rest)
    | none => do
      let rest ← properties merge left right
      pure ((name, a) :: rest)

/-- What holds for undeclared properties on either side. -/
def additional (merge : Schema → Schema → Unifying Schema) :
    Additional → Additional → Unifying Additional
  | .unstated, other => pure other
  | other, .unstated => pure other
  | .allowed a, .allowed b => pure (.allowed (a || b))
  | .schema a, .schema b => do
    let merged ← merge a b
    pure (.schema merged)
  | .schema a, .allowed flag => pure (if flag then .allowed true else .schema a)
  | .allowed flag, .schema b => pure (if flag then .allowed true else .schema b)

/-- The names that either side allows; when one side allows all, so does the
union. -/
def names : Option (List String) → Option (List String) → Option (List String)
  | some left, some right => some (unionOf left right)
  | _, _ => none

/-- The union of object shapes. -/
def objects (merge : Schema → Schema → Unifying Schema) (a b : ObjectSchema) :
    Unifying ObjectSchema := do
  let properties ← properties merge a.properties b.properties
  let additional ← additional merge a.additional b.additional
  let patterns ← mergePatterns merge a.patterns b.patterns
  pure ⟨properties, a.required.filter b.required.contains, additional, patterns,
    names a.names b.names⟩

/-- The union of two different schemas, `merge` being that of their parts. -/
def combine (merge : Schema → Schema → Unifying Schema) (a b : Schema) : Unifying Schema :=
  let keep := fun kind => a.joined b (a.agreedExtra b) kind
  let apart := Schema.ofKind (.anyOf [a, b])
  match a.kind, b.kind with
  | .never, kind => pure (keep kind)
  | kind, .never => pure (keep kind)
  | .empty, kind => pure (keep kind)
  | kind, .empty => pure (keep kind)
  -- The branches of a union come first, whichever side it stands on.
  | .anyOf branches, .anyOf incoming => joinBranches merge branches incoming
  | .anyOf branches, _ => joinBranches merge branches [b]
  | _, .anyOf branches => joinBranches merge branches [a]
  | .ref x, .ref y => if x = y then pure (keep (.ref x)) else wrapReferences x y
  -- Of scalars the wider one stands, if it admits the narrower one.
  | .const x, .const y => pure (keep (if x == y then .const x else .enumOf [x, y]))
  | .enum _ xs, .enum _ ys => pure (keep (.enumOf (unionOf xs ys)))
  | .const x, .enum _ ys => pure (keep (.enumOf (unionOf [x] ys)))
  | .enum _ xs, .const y => pure (keep (.enumOf (unionOf xs [y])))
  | .primitive p, .primitive q =>
    match p.widen? q with
    | some type => pure (keep (.primitive type))
    | none => pure apart
  | .const x, .primitive q => pure (if q.admits x then keep (.primitive q) else apart)
  | .primitive p, .const y => pure (if p.admits y then keep (.primitive p) else apart)
  | .enum _ xs, .primitive q => pure (if xs.all q.admits then keep (.primitive q) else apart)
  | .primitive p, .enum _ ys => pure (if ys.all p.admits then keep (.primitive p) else apart)
  | .object x, .object y => do
    let shape ← objects merge x y
    pure (keep (.object shape))
  -- An array without items takes on those of the other; tuples are never merged.
  | .list, .list => pure (keep .list)
  | .list, .listOf y => pure (keep (.listOf y))
  | .list, .tuple ys => pure (keep (.tuple ys))
  | .listOf x, .list => pure (keep (.listOf x))
  | .tuple xs, .list => pure (keep (.tuple xs))
  | .listOf x, .listOf y => do
    let item ← merge x y
    pure (keep (.listOf item))
  | .listOf _, .tuple _ => throw .tuples
  | .tuple _, .listOf _ => throw .tuples
  | .tuple _, .tuple _ => throw .tuples
  | _, _ => pure apart

end Union

namespace Schema

/-- The union, going at most `depth` schemas down. -/
def uniteWithin : Nat → Schema → Schema → Unifying Schema
  | 0, a, b => pure (.ofKind (.anyOf [a, b]))
  | depth + 1, a, b => if a == b then pure a else Union.combine (uniteWithin depth) a b

/-- The union of two schemas.  Equal schemas are their own union. -/
def unite (a b : Schema) : Unifying Schema := uniteWithin (a.atoms + b.atoms + 2) a b

/-- The union of a first schema and further ones, folded from the left. -/
def uniteAll (first : Schema) (rest : List Schema) : Unifying Schema := rest.foldlM unite first

end Schema

end RpcSchema
