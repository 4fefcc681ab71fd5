import RpcSchema.Json.Basic
import RpcSchema.Text.Replace

/-!
# Pointers into JSON values

A fragment such as `#/definitions/a~1b` names a part of a value: its segments,
between slashes, are the names of object members or the indices of array items.
In a segment `~1` stands for a slash and `~0` for a tilde.

Number signs and slashes at the front of a fragment carry no meaning; a
fragment of nothing else names the whole value.

## Main definitions

* `Step`, `Json.at?` — a step down into a value, and the part at a list of steps.
* `Pointer.escape`, `Pointer.unescape` — segments as written.
* `Pointer.segments` — the segments of a fragment.
* `Json.locate?` — the steps and the part that a fragment names.
* `Json.navigate?` — the part alone.
-/

namespace RpcSchema

/-- One step down into a JSON value. -/
inductive Step
  /-- To the member of an object. -/
  | member (name : String)
  /-- To the item of an array. -/
  | item (index : Nat)
  deriving DecidableEq, Repr

namespace Json

/-- The part one step down. -/
def child? : Json → Step → Option Json
  | .object fields, .member name => Fields.get? fields name
  | .array items, .item index => items[index]?
  | _, _ => none

/-- The part at the end of a list of steps. -/
def at? : Json → List Step → Option Json
  | value, [] => some value
  | value, step :: steps => (value.child? step).bind fun part => part.at? steps

end Json

namespace Pointer

/-- A name as a segment: a tilde becomes `~0`, a slash `~1`. -/
def escape (name : String) : String := replaceText (replaceText name "~" "~0") "/" "~1"

/-- The name that a segment stands for. -/
def unescape (segment : String) : String := replaceText (replaceText segment "~1" "/") "~0" "~"

/-- The pointer to the member `name` below `pointer`. -/
def child (pointer name : String) : String := pointer ++ "/" ++ escape name

/-- The pointer to an item below `pointer`. -/
def item (pointer : String) (index : Nat) : String := pointer ++ "/" ++ toString index

/-- The index written by a segment: decimal digits, leading zeros and one plus
sign allowed. -/
def index? (segment : String) : Option Nat :=
  let digits := match segment.toList with
    | '+' :: rest => rest
    | cs => cs
  if digits.isEmpty ∨ !digits.all Char.isDigit then none
  else some (digits.foldl (fun n c => n * 10 + (c.toNat - '0'.toNat)) 0)

/-- The segments of a fragment. -/
def segments (fragment : String) : List String :=
  let path := (fragment.toList.dropWhile (· = '#')).dropWhile (· = '/')
  if path.isEmpty then [] else (splitChars '/' path).map String.ofList

end Pointer

namespace Json

/-- The step that a segment takes in a value: by name in an object, by index in
an array. -/
def step? : Json → String → Option Step
  | .object _, segment => some (.member (Pointer.unescape segment))
  | .array _, segment => (Pointer.index? (Pointer.unescape segment)).map .item
  | _, _ => none

/-- Follow segments down: the steps taken and the part reached. -/
def descend? : Json → List String → Option (List Step × Json)
  | value, [] => some ([], value)
  | value, segment :: rest =>
    (value.step? segment).bind fun step =>
      (value.child? step).bind fun part =>
        (part.descend? rest).map fun found => (step :: found.1, found.2)

/-- The steps to the part that a fragment names, and the part. -/
def locate? (value : Json) (fragment : String) : Option (List Step × Json) :=
  value.descend? (Pointer.segments fragment)

/-- The part that a fragment names. -/
def navigate? (value : Json) (fragment : String) : Option Json :=
  (value.locate? fragment).map Prod.snd

/-- The steps found lead to the part found. -/
theorem at?_of_descend? {value part : Json} {segments : List String} {steps : List Step}
    (h : value.descend? segments = some (steps, part)) : value.at? steps = some part := by
  induction segments generalizing value steps with
  | nil =>
    simp only [descend?, Option.some.injEq, Prod.mk.injEq] at h
    obtain ⟨rfl, rfl⟩ := h
    rfl
  | cons segment rest ih =>
    simp only [descend?, Option.bind_eq_some_iff, Option.map_eq_some_iff, Prod.mk.injEq] at h
    obtain ⟨step, _, below, hbelow, found, hfound, rfl, rfl⟩ := h
    simp [at?, hbelow, ih hfound]

end Json

end RpcSchema
