import RpcSchema.Text.Replace

/-!
# Identifiers

Names made from the words of a document: PascalCase names for synthesized
schemas and upper-case constants for the values of an enumeration.  Both consist
of ASCII letters and digits (and underscores, for constants) whatever the text
they are made from.

## Main definitions

* `pascal` — a name in PascalCase.
* `nestedName` — the name of a schema nested under another.
* `enumKey` — the constant for an enumerated value.
-/

namespace RpcSchema

/-- ASCII letters and digits. -/
def isWordChar (c : Char) : Bool := c.isAlphanum

/-- Drop every character that is no ASCII letter or digit, and capitalize the
first character of each word between them.  `atStart` tells that a word starts. -/
def pascalChars : Bool → List Char → List Char
  | _, [] => []
  | atStart, c :: rest =>
    if isWordChar c then (if atStart then c.toUpper else c) :: pascalChars false rest
    else pascalChars true rest

/-- The words of a text, each capitalized, written together: `device-name`
becomes `DeviceName`. -/
def pascal (text : String) : String := String.ofList (pascalChars true text.toList)

/-- The name of a schema nested under `parent` at `child`. -/
def nestedName (parent child : String) : String := pascal parent ++ pascal child

/-! ### Constants -/

/-- Characters that separate the words of a constant. -/
def isWordBreak (c : Char) : Bool := c = '.' || c = '-' || c = '/' || c = ';'

/-- Put an underscore between a lower-case letter and an upper-case letter or
digit that follows it. -/
def breakCamel : List Char → List Char
  | c :: d :: rest =>
    if c.isLower && (d.isUpper || d.isDigit) then c :: '_' :: breakCamel (d :: rest)
    else c :: breakCamel (d :: rest)
  | cs => cs

/-- A character of a constant: letters in upper case, digits and underscores as
they are, anything else an underscore. -/
def constantChar (c : Char) : Char := if c.isAlphanum then c.toUpper else '_'

/-- The constant for the characters of a value, which hold no colon: `+` is
spelled out, separators and foreign characters become underscores, and camel
case is broken up.  A digit at the front gets a `V` before it. -/
def enumKeyChars (value : List Char) : List Char :=
  let spelled := replaceAll ['+'] ['_', 'p', 'l', 'u', 's'] value
  let separated := spelled.map fun c => if isWordBreak c then '_' else c
  match (breakCamel separated).map constantChar with
  | [] => ['E', 'M', 'P', 'T', 'Y']
  | c :: rest => if c.isDigit then 'V' :: c :: rest else c :: rest

/-- The constant for an enumerated value: the part after its last colon, as an
upper-case identifier. -/
def enumKey (value : String) : String :=
  String.ofList (enumKeyChars (lastPiece ':' value.toList))

end RpcSchema
