import RpcSchema.Json.Writer
import RpcSchema.Text.Quoted

/-!
# Values spelled out

Lists of values in error messages name the type of each value: `String("a")`,
`Number(1.5)`, `Array [Null]`, and an object as `Object` and its members in
braces.

## Main definitions

* `Json.inspect` — one value spelled out.
* `Json.inspectAll` — a list of values.
-/

namespace RpcSchema

namespace Json

mutual

/-- A value with its type. -/
def inspect : Json → String
  | .null => "Null"
  | .bool true => "Bool(true)"
  | .bool false => "Bool(false)"
  | .number value => "Number(" ++ value.text ++ ")"
  | .string value => "String(" ++ quoteVisibly value ++ ")"
  | .array items => "Array [" ++ String.intercalate ", " (inspectItems items) ++ "]"
  | .object fields => "Object \x7b" ++ String.intercalate ", " (inspectFields fields) ++ "\x7d"

/-- Items with their types. -/
def inspectItems : List Json → List String
  | [] => []
  | item :: rest => inspect item :: inspectItems rest

/-- Members with the types of their values. -/
def inspectFields : List (String × Json) → List String
  | [] => []
  | (name, value) :: rest => (quoteVisibly name ++ ": " ++ inspect value) :: inspectFields rest

end

/-- A list of values with their types. -/
def inspectAll (values : List Json) : String :=
  "[" ++ String.intercalate ", " (inspectItems values) ++ "]"

end Json

end RpcSchema
