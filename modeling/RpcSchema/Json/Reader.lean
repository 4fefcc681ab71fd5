import RpcSchema.Json.Basic

/-!
# Reading JSON

Text is cut into tokens, and a machine with a stack of open containers reads
the tokens one by one.  Members of an object keep their order; a repeated name
keeps its first place and its last value.

A number without fraction and exponent that fits 64 bits (signed or unsigned)
is a whole number, except `-0`, which is a floating-point number.  For the
others the digits are gathered into a significand of 64 bits, as many as fit;
later digits before the point scale it by ten, later digits after the point are
dropped.  The significand is rounded to a floating-point number and scaled by
the power of ten in rounded steps.  A number beyond the largest floating-point
value is an error.

Containers nest at most `maxDepth` levels.

## Main definitions

* `Json.Token`, `Json.tokens` — the tokens of a text.
* `Json.Assembly` — the machine's state, `Json.Assembly.step` its step.
* `Json.read` — the value written in a text, `none` when it is malformed.
-/

namespace RpcSchema

namespace Json

/-- The deepest nesting of containers. -/
def maxDepth : Nat := 127

/-- A token of JSON text. -/
inductive Token
  | openArray
  | closeArray
  | openObject
  | closeObject
  | comma
  | colon
  /-- A value without parts. -/
  | scalar (value : Json)

/-! ### Numbers -/

/-- The value of a decimal digit. -/
def digitValue (c : Char) : Nat := c.toNat - '0'.toNat

/-- The largest significand. -/
def maxSignificand : Nat := Nat.pow 2 64 - 1

/-- Append digits to a significand as long as it fits, and count the digits that
are left over. -/
def absorb : Nat → List Char → Nat × Nat
  | significand, [] => (significand, 0)
  | significand, c :: rest =>
    let longer := significand * 10 + digitValue c
    if longer ≤ maxSignificand then absorb longer rest else (significand, rest.length + 1)

/-- The floating-point number `± significand · 10 ^ exponent`. -/
def floatOf (negative : Bool) (significand : Nat) (exponent : Int) : Option Json :=
  (Binary64.ofNat significand).bind fun x =>
    (x.scaleByTen exponent).map fun scaled => .number (.float (scaled.withSign negative))

/-- The number without fraction and exponent whose digits gave a significand and
left `dropped` digits over. -/
def wholeOf (negative : Bool) (significand dropped : Nat) : Option Json :=
  if dropped ≠ 0 then floatOf negative significand dropped
  else if !negative then some (.number (.int significand))
  else if significand = 0 ∨ Nat.pow 2 63 < significand then floatOf true significand 0
  else some (.number (.int (-significand)))

/-- Read an exponent after its letter: the sign may be left out, the digits may
not. -/
def readExponent (negative : Bool) (significand : Nat) (scale : Int) (cs : List Char) :
    Option (Json × List Char) :=
  let (minus, cs) := match cs with
    | '+' :: rest => (false, rest)
    | '-' :: rest => (true, rest)
    | _ => (false, cs)
  let digits := cs.takeWhile Char.isDigit
  if digits.isEmpty then none
  else
    let size : Int := digits.foldl (fun n c => n * 10 + digitValue c) 0
    (floatOf negative significand (if minus then scale - size else scale + size)).map
      fun value => (value, cs.dropWhile Char.isDigit)

/-- Read what follows the digits before the point. -/
def readFraction (negative : Bool) (significand dropped : Nat) :
    List Char → Option (Json × List Char)
  | '.' :: cs =>
    let digits := cs.takeWhile Char.isDigit
    let rest := cs.dropWhile Char.isDigit
    if digits.isEmpty then none
    else
      let (significand, left) := absorb significand digits
      let scale : Int := dropped - ((digits.length - left : Nat) : Int)
      match rest with
      | 'e' :: rest => readExponent negative significand scale rest
      | 'E' :: rest => readExponent negative significand scale rest
      | _ => (floatOf negative significand scale).map fun value => (value, rest)
  | 'e' :: cs => readExponent negative significand dropped cs
  | 'E' :: cs => readExponent negative significand dropped cs
  | cs => (wholeOf negative significand dropped).map fun value => (value, cs)

/-- Read a number after its sign.  A leading zero stands alone. -/
def readNumber (negative : Bool) (cs : List Char) : Option (Json × List Char) :=
  let digits := cs.takeWhile Char.isDigit
  let rest := cs.dropWhile Char.isDigit
  match digits with
  | [] => none
  | '0' :: _ :: _ => none
  | _ =>
    let (significand, dropped) := absorb 0 digits
    readFraction negative significand dropped rest

/-! ### Strings -/

/-- The value of a hexadecimal digit. -/
def hexValue? (c : Char) : Option Nat :=
  if '0' ≤ c ∧ c ≤ '9' then some (c.toNat - '0'.toNat)
  else if 'a' ≤ c ∧ c ≤ 'f' then some (c.toNat - 'a'.toNat + 10)
  else if 'A' ≤ c ∧ c ≤ 'F' then some (c.toNat - 'A'.toNat + 10)
  else none

/-- The value of four hexadecimal digits. -/
def hexUnit? (a b c d : Char) : Option Nat := do
  some (((← hexValue? a) * 16 + (← hexValue? b)) * 256 + (← hexValue? c) * 16 + (← hexValue? d))

/-- The character of an escape with a single letter. -/
def simpleEscape? (c : Char) : Option Char :=
  match c with
  | '"' => some '"'
  | '\\' => some '\\'
  | '/' => some '/'
  | 'b' => some '\x08'
  | 'f' => some '\x0c'
  | 'n' => some '\n'
  | 'r' => some '\r'
  | 't' => some '\t'
  | _ => none

/-- Read the rest of a string, the characters so far being `done` in reverse.
Control characters and halves of surrogate pairs are refused. -/
def readString (done : List Char) : List Char → Option (String × List Char)
  | [] => none
  | '"' :: rest => some (String.ofList done.reverse, rest)
  | '\\' :: 'u' :: a :: b :: c :: d :: rest =>
    match hexUnit? a b c d with
    | none => none
    | some unit =>
      if 0xDC00 ≤ unit ∧ unit ≤ 0xDFFF then none
      else if 0xD800 ≤ unit ∧ unit ≤ 0xDBFF then
        match rest with
        | '\\' :: 'u' :: e :: f :: g :: h :: rest =>
          match hexUnit? e f g h with
          | none => none
          | some low =>
            if 0xDC00 ≤ low ∧ low ≤ 0xDFFF then
              readString (Char.ofNat ((unit - 0xD800) * 0x400 + (low - 0xDC00) + 0x10000) :: done)
                rest
            else none
        | _ => none
      else readString (Char.ofNat unit :: done) rest
  | '\\' :: c :: rest =>
    match simpleEscape? c with
    | none => none
    | some escaped => readString (escaped :: done) rest
  | c :: rest => if c.toNat < 0x20 then none else readString (c :: done) rest

/-! ### Tokens -/

/-- Blanks between tokens. -/
def isBlank (c : Char) : Bool := c = ' ' || c = '\n' || c = '\t' || c = '\r'

/-- Read one token from text that starts with no blank. -/
def readToken : List Char → Option (Token × List Char)
  | '[' :: rest => some (.openArray, rest)
  | ']' :: rest => some (.closeArray, rest)
  | '\x7b' :: rest => some (.openObject, rest)
  | '\x7d' :: rest => some (.closeObject, rest)
  | ',' :: rest => some (.comma, rest)
  | ':' :: rest => some (.colon, rest)
  | 'n' :: 'u' :: 'l' :: 'l' :: rest => some (.scalar .null, rest)
  | 't' :: 'r' :: 'u' :: 'e' :: rest => some (.scalar (.bool true), rest)
  | 'f' :: 'a' :: 'l' :: 's' :: 'e' :: rest => some (.scalar (.bool false), rest)
  | '"' :: rest => (readString [] rest).map fun read => (.scalar (.string read.1), read.2)
  | '-' :: rest => (readNumber true rest).map fun read => (.scalar read.1, read.2)
  | cs => (readNumber false cs).map fun read => (.scalar read.1, read.2)

/-- Read tokens to the end of the text, at most `fuel` steps; `done` holds the
tokens so far in reverse.  Every step takes a character, so the length of the
text is fuel enough. -/
def readTokens : Nat → List Token → List Char → Option (List Token)
  | _, done, [] => some done.reverse
  | 0, _, _ :: _ => none
  | fuel + 1, done, c :: rest =>
    if isBlank c then readTokens fuel done rest
    else
      match readToken (c :: rest) with
      | none => none
      | some (token, rest) => readTokens fuel (token :: done) rest

/-- The tokens of a text. -/
def tokens (text : String) : Option (List Token) :=
  let cs := text.toList
  readTokens cs.length [] cs

/-! ### Assembly -/

/-- A container that is still open. -/
inductive Frame
  /-- An array with its items so far, in reverse. -/
  | array (items : List Json)
  /-- An object with its members so far and the name of the next one. -/
  | object (fields : Fields Json) (key : String)

/-- What may come next. -/
inductive Expectation
  /-- A value; in an array just opened also its end. -/
  | value (orEnd : Bool)
  /-- The name of a member; in an object just opened also its end. -/
  | key (orEnd : Bool)
  /-- The colon after a name. -/
  | colon
  /-- A comma or the end of the container. -/
  | separator
  /-- Nothing: the value is complete. -/
  | nothing (result : Json)

/-- The state of the machine: the open containers, innermost first, and what may
come next. -/
structure Assembly where
  stack : List Frame
  expected : Expectation

namespace Assembly

/-- Nothing has been read. -/
def start : Assembly := ⟨[], .value false⟩

/-- Put a complete value into the innermost container. -/
def put (value : Json) : List Frame → Assembly
  | [] => ⟨[], .nothing value⟩
  | .array items :: rest => ⟨.array (value :: items) :: rest, .separator⟩
  | .object fields key :: rest => ⟨.object (Fields.set fields key value) key :: rest, .separator⟩

/-- Close the innermost container with the given token. -/
def close : Token → List Frame → Option Assembly
  | .closeArray, .array items :: rest => some (put (.array items.reverse) rest)
  | .closeObject, .object fields _ :: rest => some (put (.object fields) rest)
  | _, _ => none

/-- Open a container unless the nesting is too deep. -/
def push (frame : Frame) (expected : Expectation) (stack : List Frame) : Option Assembly :=
  if stack.length < maxDepth then some ⟨frame :: stack, expected⟩ else none

/-- Read one token. -/
def step (state : Assembly) (token : Token) : Option Assembly :=
  match state.expected, token, state.stack with
  | .value _, .scalar value, stack => some (put value stack)
  | .value _, .openArray, stack => push (.array []) (.value true) stack
  | .value _, .openObject, stack => push (.object [] "") (.key true) stack
  | .value true, .closeArray, stack => close .closeArray stack
  | .key _, .scalar (.string key), .object fields _ :: rest =>
    some ⟨.object fields key :: rest, .colon⟩
  | .key true, .closeObject, stack => close .closeObject stack
  | .colon, .colon, stack => some ⟨stack, .value false⟩
  | .separator, .comma, .array items :: rest => some ⟨.array items :: rest, .value false⟩
  | .separator, .comma, .object fields key :: rest => some ⟨.object fields key :: rest, .key false⟩
  | .separator, token, stack => close token stack
  | _, _, _ => none

/-- The value read, when it is complete. -/
def result? (state : Assembly) : Option Json :=
  match state.expected with
  | .nothing result => some result
  | _ => none

end Assembly

/-- The value written by a list of tokens. -/
def ofTokens (ts : List Token) : Option Json :=
  (ts.foldlM Assembly.step Assembly.start).bind Assembly.result?

/-- The value written in a text. -/
def read (text : String) : Option Json := (tokens text).bind ofTokens

end Json

end RpcSchema
