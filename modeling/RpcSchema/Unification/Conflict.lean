import RpcSchema.Json.Inspection

/-!
# Conflicts

Why two schemas cannot be made into one.

## Main definitions

* `Conflict` — the reasons.
* `Conflict.message` — their wording.
-/

namespace RpcSchema

/-- Why two schemas cannot be combined. -/
inductive Conflict
  /-- The types have no value in common. -/
  | types (left right : Json)
  /-- The constants differ. -/
  | constants (left right : Json)
  /-- The enumerations have no value in common. -/
  | enumerations (left right : List Json)
  /-- The constant is not enumerated. -/
  | excluded (value : Json) (allowed : List Json)
  /-- The references differ. -/
  | references (left right : String)
  /-- Arrays by position combine with no other array. -/
  | tuples

/-- The wording of a conflict. -/
def Conflict.message : Conflict → String
  | .types left right =>
    "type mismatch: cannot intersect " ++ left.compact ++ " with " ++ right.compact
  | .constants left right =>
    "conflicting const values " ++ left.compact ++ " and " ++ right.compact
  | .enumerations left right =>
    "enum intersection is empty: " ++ Json.inspectAll left ++ " and " ++ Json.inspectAll right
  | .excluded value allowed =>
    "const " ++ value.compact ++ " is not one of " ++ Json.inspectAll allowed
  | .references left right =>
    "cannot intersect distinct references " ++ left ++ " and " ++ right
  | .tuples => "cannot combine positional tuple items"

end RpcSchema
