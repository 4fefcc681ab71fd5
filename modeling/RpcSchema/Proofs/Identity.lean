import RpcSchema.Dereference
import RpcSchema.Proofs.Outcome

/-!
# Telling values apart

Two JSON values are the same when they are written the same: unlike equality of JSON,
this counts the order of members.  It is decided by comparing the values part by part,
and with it whatever holds JSON values can be told apart: documents, the targets of
references and the results of dereferencing.

## Main results

* `Json.same_iff` — the comparison tells JSON values apart.
-/

namespace RpcSchema

deriving instance DecidableEq for Number

namespace Json

mutual

/-- Whether two values are the same, the order of members included. -/
def same : Json → Json → Bool
  | .null, .null => true
  | .bool a, .bool b => a = b
  | .number m, .number n => m = n
  | .string s, .string t => s = t
  | .array xs, .array ys => sameItems xs ys
  | .object xs, .object ys => sameFields xs ys
  | _, _ => false

/-- Whether two lists of items are the same. -/
def sameItems : List Json → List Json → Bool
  | [], [] => true
  | x :: xs, y :: ys => same x y && sameItems xs ys
  | _, _ => false

/-- Whether two lists of members are the same. -/
def sameFields : List (String × Json) → List (String × Json) → Bool
  | [], [] => true
  | (name, x) :: xs, (name', y) :: ys => name = name' && same x y && sameFields xs ys
  | _, _ => false

end

mutual

/-- **The comparison tells values apart.** -/
theorem same_iff : ∀ {x y : Json}, same x y = true ↔ x = y
  | .null, y => by cases y <;> simp [same]
  | .bool _, y => by cases y <;> simp [same]
  | .number _, y => by cases y <;> simp [same]
  | .string _, y => by cases y <;> simp [same]
  | .array xs, y => by
    cases y with
    | array ys => rw [same, sameItems_iff, array.injEq]
    | _ => simp [same]
  | .object xs, y => by
    cases y with
    | object ys => rw [same, sameFields_iff, object.injEq]
    | _ => simp [same]

theorem sameItems_iff : ∀ {xs ys : List Json}, sameItems xs ys = true ↔ xs = ys
  | [], ys => by cases ys <;> simp [sameItems]
  | x :: xs, ys => by
    cases ys with
    | nil => simp [sameItems]
    | cons y ys => rw [sameItems, Bool.and_eq_true, same_iff, sameItems_iff, List.cons.injEq]

theorem sameFields_iff : ∀ {xs ys : List (String × Json)}, sameFields xs ys = true ↔ xs = ys
  | [], ys => by cases ys <;> simp [sameFields]
  | (name, x) :: xs, ys => by
    cases ys with
    | nil => simp [sameFields]
    | cons y ys =>
      rw [sameFields, Bool.and_eq_true, Bool.and_eq_true, same_iff, sameFields_iff,
        List.cons.injEq, Prod.ext_iff, decide_eq_true_iff]

end

instance : DecidableEq Json := fun _ _ => decidable_of_iff _ same_iff

end Json

deriving instance DecidableEq for Document, Source, Target, Dereferenced

/-- A result is known from what remains of the outcome without the failures. -/
theorem eq_ok_of_toOption {outcome : Except Failure Dereferenced} {result : Dereferenced}
    (h : outcome.toOption = some result) : outcome = .ok result :=
  toOption_eq_some_iff.mp h

end RpcSchema
