import RpcSchema.Unification.Basic

/-!
# Intersections

The intersection of two schemas accepts what both accept.  Where no schema says
so, combining fails with a conflict.

Titles and descriptions are taken from the right schema first; of kept keywords
that both have, the right one wins.  An operand distributes over the branches of
a union, and branches that conflict with it are dropped.

The recursion follows both schemas down, so its depth is bounded by the number
of their nodes together.

## Main definitions

* `Schema.intersect` — the intersection of two schemas.
* `Schema.intersectAll` — of a list.
-/

namespace RpcSchema

namespace Schema

/-- The kept keywords of both schemas. -/
def sharedExtra (a b : Schema) : Fields Json :=
  b.extra.foldl (fun extra entry => Fields.set extra entry.1 entry.2) a.extra

/-- The conflict between schemas of different types. -/
def typeConflict (a b : Schema) : Conflict := .types a.toJson b.toJson

end Schema

/-- The primitive type that both types admit: an integer is a number. -/
def Primitive.meet? : Primitive → Primitive → Option Primitive
  | .integer, .number => some .integer
  | .number, .integer => some .integer
  | p, q => if p = q then some p else none

namespace Intersection

/-- The branches of a union, each combined with the other operand by `merge`.
Conflicting branches are dropped; when all conflict the first conflict stands,
and a union without branches leaves the other operand. -/
def distribute (merge : Schema → Except Conflict Schema) (other : Schema)
    (branches : List Schema) : Except Conflict Schema :=
  let merged := branches.map merge
  let kept := distinct (merged.filterMap Except.toOption)
  let conflict? := merged.findSome? fun
    | .error conflict => some conflict
    | .ok _ => none
  match kept, conflict? with
  | [], some conflict => .error conflict
  | [], none => .ok other
  | [schema], _ => .ok schema
  | kept, _ => .ok (.ofKind (.anyOf kept))

/-- Properties of both sides.  A property of one side only is dropped when the
other side is closed. -/
def properties (merge : Schema → Schema → Except Conflict Schema) (leftClosed rightClosed : Bool) :
    Fields Schema → Fields Schema → Except Conflict (Fields Schema)
  | [], right => .ok (if leftClosed then [] else right)
  | (name, a) :: left, right =>
    match Fields.extract? right name with
    | some (b, others) => do
      let merged ← merge a b
      let rest ← properties merge leftClosed rightClosed left others
      .ok ((name, merged) :: rest)
    | none => do
      let rest ← properties merge leftClosed rightClosed left right
      .ok (if rightClosed then rest else (name, a) :: rest)

/-- What holds for undeclared properties on both sides. -/
def additional (merge : Schema → Schema → Except Conflict Schema) :
    Additional → Additional → Except Conflict Additional
  | .unstated, other => .ok other
  | other, .unstated => .ok other
  | .allowed a, .allowed b => .ok (.allowed (a && b))
  | .schema a, .schema b => (merge a b).map .schema
  | .schema a, .allowed flag => .ok (if flag then .schema a else .allowed false)
  | .allowed flag, .schema b => .ok (if flag then .schema b else .allowed false)

/-- The names that both sides allow. -/
def names : Option (List String) → Option (List String) → Option (List String)
  | some left, some right => some (left.filter right.contains)
  | some left, none => some left
  | none, right => right

/-- The intersection of object shapes. -/
def objects (merge : Schema → Schema → Except Conflict Schema) (a b : ObjectSchema) :
    Except Conflict ObjectSchema := do
  let properties ← properties merge a.additional.isClosed b.additional.isClosed
    a.properties b.properties
  let additional ← additional merge a.additional b.additional
  let patterns ← mergePatterns merge a.patterns b.patterns
  .ok ⟨properties, unionOf a.required b.required, additional, patterns, names a.names b.names⟩

/-- The intersection of two different schemas, `merge` being that of their
parts. -/
def combine (merge : Schema → Schema → Except Conflict Schema) (a b : Schema) :
    Except Conflict Schema :=
  let keep := fun kind => a.joined b (a.sharedExtra b) kind
  match a.kind, b.kind with
  | .never, _ => .ok (keep .never)
  | _, .never => .ok (keep .never)
  | .empty, kind => .ok (keep kind)
  | kind, .empty => .ok (keep kind)
  -- A union on the left is taken apart first, so its branches stay outermost.
  | .anyOf branches, _ => distribute (fun branch => merge branch b) b branches
  | _, .anyOf branches => distribute (fun branch => merge a branch) a branches
  | .ref x, .ref y => if x = y then .ok (keep (.ref x)) else .error (.references x y)
  -- Of scalars the narrower one stands, if the wider one admits it.
  | .const x, .const y => if x == y then .ok (keep (.const x)) else .error (.constants x y)
  | .enum _ xs, .enum _ ys =>
    let common := xs.filter ys.contains
    if common.isEmpty then .error (.enumerations xs ys) else .ok (keep (.enumOf common))
  | .const x, .enum _ ys => if ys.contains x then .ok (keep (.const x)) else .error (.excluded x ys)
  | .enum _ xs, .const y => if xs.contains y then .ok (keep (.const y)) else .error (.excluded y xs)
  | .primitive p, .primitive q =>
    match p.meet? q with
    | some type => .ok (keep (.primitive type))
    | none => .error (a.typeConflict b)
  | .const x, .primitive q =>
    if q.admits x then .ok (keep (.const x)) else .error (a.typeConflict b)
  | .primitive p, .const y =>
    if p.admits y then .ok (keep (.const y)) else .error (a.typeConflict b)
  | .enum p xs, .primitive q =>
    if xs.all q.admits then .ok (keep (.enum p xs)) else .error (a.typeConflict b)
  | .primitive p, .enum q ys =>
    if ys.all p.admits then .ok (keep (.enum q ys)) else .error (a.typeConflict b)
  | .object x, .object y => (objects merge x y).map fun shape => keep (.object shape)
  -- An array without items says nothing about them; a tuple agrees with no other items.
  | .list, .list => .ok (keep .list)
  | .list, .listOf y => .ok (keep (.listOf y))
  | .list, .tuple ys => .ok (keep (.tuple ys))
  | .listOf x, .list => .ok (keep (.listOf x))
  | .tuple xs, .list => .ok (keep (.tuple xs))
  | .listOf x, .listOf y => (merge x y).map fun item => keep (.listOf item)
  | .listOf _, .tuple _ => .error .tuples
  | .tuple _, .listOf _ => .error .tuples
  | .tuple _, .tuple _ => .error .tuples
  | _, _ => .error (a.typeConflict b)

end Intersection

namespace Schema

/-- The intersection, going at most `depth` schemas down. -/
def intersectWithin : Nat → Schema → Schema → Except Conflict Schema
  | 0, a, b => .error (a.typeConflict b)
  | depth + 1, a, b =>
    if a == b then .ok a else Intersection.combine (intersectWithin depth) a b

/-- The intersection of two schemas.  Equal schemas are their own intersection. -/
def intersect (a b : Schema) : Except Conflict Schema := intersectWithin (a.size + b.size) a b

/-- The intersection of a list of schemas, folded from the left; that of none is
the schema without a shape. -/
def intersectAll : List Schema → Except Conflict Schema
  | [] => .ok (.ofKind .empty)
  | first :: rest => rest.foldlM intersect first

end Schema

end RpcSchema
