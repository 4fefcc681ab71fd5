import RpcSchema.Json.Basic
import RpcSchema.Number.Shortest

/-!
# Writing JSON

The two written forms of a JSON value: *compact*, without any blanks, and
*pretty*, one member or item a line, indented by two spaces a level.

In strings only the quotation mark, the backslash and the characters below
U+0020 are escaped.  A floating-point number is written with its shortest
decimal: positional, with at least one digit after the point, when its exponent
lies within `FloatStyle`'s bounds, in scientific notation otherwise.

## Main definitions

* `FloatStyle`, `floatText` — how floating-point numbers are written.
* `Json.compact` — the compact form.
* `Json.pretty` — the pretty form.
-/

namespace RpcSchema

/-- Where positional notation ends. -/
structure FloatStyle where
  /-- The least exponent written positionally. -/
  least : Int
  /-- The greatest exponent written positionally. -/
  greatest : Int

/-- JSON numbers are positional from `0.00001` up to sixteen digits before the
point. -/
def jsonFloats : FloatStyle := ⟨-5, 15⟩

/-- `n` zeros. -/
def zeros (n : Nat) : List Char := List.replicate n '0'

/-- The decimal with the given digits and leading exponent, positionally. -/
def positional (digits : List Char) (leading : Int) : List Char :=
  if leading < 0 then '0' :: '.' :: zeros (leading.natAbs - 1) ++ digits
  else
    let whole := leading.toNat + 1
    if digits.length ≤ whole then digits ++ zeros (whole - digits.length) ++ ['.', '0']
    else digits.take whole ++ '.' :: digits.drop whole

/-- The decimal with the given digits and leading exponent, in scientific
notation; the exponent has a sign. -/
def scientific (digits : List Char) (leading : Int) : List Char :=
  let mantissa := match digits with
    | [] => []
    | [digit] => [digit]
    | digit :: rest => digit :: '.' :: rest
  let sign := if leading < 0 then '-' else '+'
  mantissa ++ 'e' :: sign :: Nat.toDigits 10 leading.natAbs

/-- The text of a floating-point number. -/
def floatText (style : FloatStyle) (x : Binary64) : String :=
  let magnitude :=
    if x.isZero then ['0', '.', '0']
    else
      let decimal := x.shortest
      let digits := Nat.toDigits 10 decimal.digits
      let leading := decimal.scientificExponent
      if style.least ≤ leading ∧ leading ≤ style.greatest then positional digits leading
      else scientific digits leading
  String.ofList (if x.negative then '-' :: magnitude else magnitude)

/-- The text of a number. -/
def Number.text : Number → String
  | .int value => toString value
  | .float value => floatText jsonFloats value

namespace Json

/-- A lower-case hexadecimal digit. -/
def hexDigit (n : Nat) : Char := Nat.digitChar n

/-- The written form of one character of a string. -/
def escapeChar (c : Char) : List Char :=
  if c = '"' then ['\\', '"']
  else if c = '\\' then ['\\', '\\']
  else if c = '\n' then ['\\', 'n']
  else if c = '\r' then ['\\', 'r']
  else if c = '\t' then ['\\', 't']
  else if c = '\x08' then ['\\', 'b']
  else if c = '\x0c' then ['\\', 'f']
  else if c.toNat < 0x20 then
    ['\\', 'u', '0', '0', hexDigit (c.toNat / 16), hexDigit (c.toNat % 16)]
  else [c]

/-- A string in quotation marks. -/
def quote (s : String) : String :=
  String.ofList ('"' :: s.toList.flatMap escapeChar ++ ['"'])

/-! ### The compact form -/

mutual

/-- The compact form. -/
def compact : Json → String
  | .null => "null"
  | .bool true => "true"
  | .bool false => "false"
  | .number value => value.text
  | .string value => quote value
  | .array items => "[" ++ String.intercalate "," (compactItems items) ++ "]"
  | .object fields => "\x7b" ++ String.intercalate "," (compactFields fields) ++ "\x7d"

/-- The compact forms of items. -/
def compactItems : List Json → List String
  | [] => []
  | item :: rest => compact item :: compactItems rest

/-- The compact forms of members. -/
def compactFields : List (String × Json) → List String
  | [] => []
  | (name, value) :: rest => (quote name ++ ":" ++ compact value) :: compactFields rest

end

/-! ### The pretty form -/

/-- A new line indented to a level. -/
def newLine (level : Nat) : String := String.ofList ('\n' :: List.replicate (2 * level) ' ')

/-- Lines between brackets; nothing but the brackets when there are none. -/
def bracketed (opening closing : String) (level : Nat) (lines : List String) : String :=
  if lines.isEmpty then opening ++ closing
  else
    opening ++ newLine (level + 1) ++ String.intercalate ("," ++ newLine (level + 1)) lines
      ++ newLine level ++ closing

mutual

/-- The pretty form at a level of indentation. -/
def prettyAt (level : Nat) : Json → String
  | .array items => bracketed "[" "]" level (prettyItems (level + 1) items)
  | .object fields => bracketed "\x7b" "\x7d" level (prettyFields (level + 1) fields)
  | .null => "null"
  | .bool true => "true"
  | .bool false => "false"
  | .number value => value.text
  | .string value => quote value

/-- The pretty forms of items. -/
def prettyItems (level : Nat) : List Json → List String
  | [] => []
  | item :: rest => prettyAt level item :: prettyItems level rest

/-- The pretty forms of members. -/
def prettyFields (level : Nat) : List (String × Json) → List String
  | [] => []
  | (name, value) :: rest =>
    (quote name ++ ": " ++ prettyAt level value) :: prettyFields level rest

end

/-- The pretty form. -/
def pretty (value : Json) : String := prettyAt 0 value

end Json

end RpcSchema
