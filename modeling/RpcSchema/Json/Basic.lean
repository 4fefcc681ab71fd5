import RpcSchema.Fields
import RpcSchema.Number.Binary64

/-!
# JSON values

JSON values with the order of object members kept.  Whole numbers written as
such stay whole numbers; every other number is a binary floating-point value,
so `1` and `1.0` are different values.

Equality is that of JSON: two objects are equal when they hold the same
members in any order, two arrays when they hold equal items in the same order.

## Main definitions

* `Number`, `Json` — the values.
* `Json.beq` — equality of values.
* `Json.string?`, `Json.array?`, `Json.object?`, `Json.field?` — parts of a value.
* `Json.typeName` — the name of a value's type.
-/

namespace RpcSchema

/-- A JSON number. -/
inductive Number
  /-- A whole number between `-2^63` and `2^64 - 1`, written without a fraction. -/
  | int (value : Int)
  /-- Any other number. -/
  | float (value : Binary64)
  deriving Repr, Inhabited

namespace Number

/-- Whole numbers and floating-point numbers are never equal; the two floating-point
zeros are. -/
def beq : Number → Number → Bool
  | .int m, .int n => m = n
  | .float x, .float y => x = y || (x.significand = 0 && y.significand = 0)
  | _, _ => false

instance : BEq Number := ⟨beq⟩

end Number

/-- A JSON value. -/
inductive Json
  | null
  | bool (value : Bool)
  | number (value : Number)
  | string (value : String)
  | array (items : List Json)
  | object (fields : List (String × Json))
  deriving Inhabited

namespace Json

/-! ### Equality -/

mutual

/-- Equality of values; the order of object members does not count. -/
def beq : Json → Json → Bool
  | .null, .null => true
  | .bool a, .bool b => a = b
  | .number m, .number n => m == n
  | .string s, .string t => s = t
  | .array xs, .array ys => beqItems xs ys
  | .object xs, .object ys => xs.length = ys.length && beqFields xs ys
  | _, _ => false

/-- Equality of items, one by one. -/
def beqItems : List Json → List Json → Bool
  | [], [] => true
  | x :: xs, y :: ys => beq x y && beqItems xs ys
  | _, _ => false

/-- Whether every member on the left has an equal one on the right. -/
def beqFields : List (String × Json) → List (String × Json) → Bool
  | [], _ => true
  | (name, x) :: xs, ys =>
    (match Fields.get? ys name with
      | some y => beq x y
      | none => false) && beqFields xs ys

end

instance : BEq Json := ⟨beq⟩

/-! ### Parts -/

/-- The text of a string. -/
def string? : Json → Option String
  | .string value => some value
  | _ => none

/-- The items of an array. -/
def array? : Json → Option (List Json)
  | .array items => some items
  | _ => none

/-- The members of an object. -/
def object? : Json → Option (Fields Json)
  | .object fields => some fields
  | _ => none

/-- The member of an object with the given name. -/
def field? (value : Json) (name : String) : Option Json :=
  value.object?.bind fun fields => Fields.get? fields name

/-- Whether the value is a string. -/
def isString (value : Json) : Bool := value.string?.isSome

/-- Whether the value is an object. -/
def isObject (value : Json) : Bool := value.object?.isSome

/-- The string member of an object with the given name. -/
def stringField? (value : Json) (name : String) : Option String :=
  (value.field? name).bind string?

/-- The name of a value's type. -/
def typeName : Json → String
  | .null => "null"
  | .bool _ => "boolean"
  | .number _ => "number"
  | .string _ => "string"
  | .array _ => "array"
  | .object _ => "object"

/-- An array of strings. -/
def strings (values : List String) : Json := .array (values.map .string)

@[simp] theorem string?_string (s : String) : (Json.string s).string? = some s := rfl

@[simp] theorem array?_array (items : List Json) : (Json.array items).array? = some items := rfl

@[simp] theorem object?_object (fields : Fields Json) :
    (Json.object fields).object? = some fields := rfl

@[simp] theorem field?_object (fields : Fields Json) (name : String) :
    (Json.object fields).field? name = Fields.get? fields name := rfl

end Json

end RpcSchema
