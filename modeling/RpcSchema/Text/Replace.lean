/-!
# Replacing text

Every occurrence of a piece of text is replaced by another, from left to right;
occurrences do not overlap, and inserted text is not searched again.

## Main definitions

* `dropLeading?` — the rest after an expected beginning.
* `replaceAll` — the replacement on characters.
* `replaceText` — the replacement on strings.
* `splitText`, `lastPiece` — the pieces between separators.
-/

namespace RpcSchema

/-- The rest of `text` after `beginning`, when it begins so. -/
def dropLeading? : List Char → List Char → Option (List Char)
  | [], text => some text
  | _ :: _, [] => none
  | c :: beginning, d :: text => if c = d then dropLeading? beginning text else none

/-- Replace every occurrence of a non-empty `pattern`.  `skip` characters are
still part of the occurrence just replaced. -/
def replaceFrom (pattern replacement : List Char) : Nat → List Char → List Char
  | _, [] => []
  | skip + 1, _ :: rest => replaceFrom pattern replacement skip rest
  | 0, c :: rest =>
    if (dropLeading? pattern (c :: rest)).isSome then
      replacement ++ replaceFrom pattern replacement (pattern.length - 1) rest
    else c :: replaceFrom pattern replacement 0 rest

/-- Replace every occurrence of a non-empty `pattern`. -/
def replaceAll (pattern replacement text : List Char) : List Char :=
  replaceFrom pattern replacement 0 text

/-- Replace every occurrence of a non-empty `pattern` in `text`. -/
def replaceText (text pattern replacement : String) : String :=
  String.ofList (replaceAll pattern.toList replacement.toList text.toList)

/-- The pieces of a text between occurrences of a separator; at least one. -/
def splitChars (separator : Char) : List Char → List (List Char)
  | [] => [[]]
  | c :: rest =>
    if c = separator then [] :: splitChars separator rest
    else
      match splitChars separator rest with
      | [] => [[c]]
      | piece :: pieces => (c :: piece) :: pieces

/-- The pieces of a text between occurrences of a separator; at least one. -/
def splitText (separator : Char) (text : String) : List String :=
  (splitChars separator text.toList).map String.ofList

/-- What follows the last occurrence of a separator, or the whole text. -/
def lastPiece (separator : Char) (text : List Char) : List Char :=
  (splitChars separator text).getLast?.getD []

end RpcSchema
