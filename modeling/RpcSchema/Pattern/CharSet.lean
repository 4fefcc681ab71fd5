import RpcSchema.Text.CaseFold
import RpcSchema.Text.Category

/-!
# Sets of characters

The sets that text patterns are made of: ranges, classes of Unicode, and what
set operations and disregard of case make of them.  Nothing but patterns uses
them.

## Main definitions

* `CharSet`, `CharSet.contains` — sets and their members.
* `CharSet.ascii?` — the named sets of ASCII characters.
* `CharSet.property?` — the sets of the general categories, by name.
-/

namespace RpcSchema

/-- A set of characters. -/
inductive CharSet
  | empty
  /-- The characters from one to another, ends included. -/
  | range (first last : Char)
  /-- Decimal digits of any script. -/
  | digit
  /-- White space. -/
  | space
  /-- Letters, marks, digits and connectors. -/
  | word
  /-- A general category, or all of a major class. -/
  | category (major : Char) (minor : Option Char)
  | union (a b : CharSet)
  | inter (a b : CharSet)
  | diff (a b : CharSet)
  | symmDiff (a b : CharSet)
  | compl (a : CharSet)
  /-- What equals a member up to case. -/
  | anyCase (a : CharSet)
  /-- The same for ASCII letters alone. -/
  | anyAsciiCase (a : CharSet)
  deriving DecidableEq, Repr, Inhabited

namespace CharSet

/-- An ASCII letter in the other case; other characters stay. -/
def otherAsciiCase (c : Char) : Char := if c.isUpper then c.toLower else c.toUpper

/-- Whether a character is a member. -/
def contains : CharSet → Char → Bool
  | .empty, _ => false
  | .range first last, c => first ≤ c && c ≤ last
  | .digit, c => isDecimalDigit c
  | .space, c => isSpace c
  | .word, c => isWordLetter c
  | .category major minor, c =>
    let category := Category.of c
    category.major = major && minor.all (· = category.minor)
  | .union a b, c => a.contains c || b.contains c
  | .inter a b, c => a.contains c && b.contains c
  | .diff a b, c => a.contains c && !b.contains c
  | .symmDiff a b, c => a.contains c != b.contains c
  | .compl a, c => !a.contains c
  | .anyCase a, c => (caseVariants c).any a.contains
  | .anyAsciiCase a, c => a.contains c || a.contains (otherAsciiCase c)

/-- The set of one character. -/
def single (c : Char) : CharSet := .range c c

/-- The union of sets. -/
def unions (sets : List CharSet) : CharSet := sets.foldl .union .empty

/-- The set of all characters. -/
def full : CharSet := .compl .empty

/-- The set of some characters. -/
def ofList (cs : List Char) : CharSet := unions (cs.map single)

/-! ### ASCII -/

/-- The ASCII characters. -/
def ascii : CharSet := .range '\x00' '\x7f'

/-- The ASCII digits. -/
def asciiDigit : CharSet := .range '0' '9'

/-- The ASCII letters. -/
def asciiAlpha : CharSet := .union (.range 'A' 'Z') (.range 'a' 'z')

/-- The ASCII letters and digits. -/
def asciiAlnum : CharSet := .union asciiDigit asciiAlpha

/-- The ASCII letters and digits, and the underscore. -/
def asciiWord : CharSet := .union asciiAlnum (single '_')

/-- The ASCII white space. -/
def asciiSpace : CharSet := .union (.range '\t' '\r') (single ' ')

/-- The set of ASCII characters of a name. -/
def ascii? : String → Option CharSet
  | "alnum" => some asciiAlnum
  | "alpha" => some asciiAlpha
  | "ascii" => some ascii
  | "blank" => some (ofList ['\t', ' '])
  | "cntrl" => some (.union (.range '\x00' '\x1f') (single '\x7f'))
  | "digit" => some asciiDigit
  | "graph" => some (.range '!' '~')
  | "lower" => some (.range 'a' 'z')
  | "print" => some (.range ' ' '~')
  | "punct" =>
    some (unions [.range '!' '/', .range ':' '@', .range '[' '\x60', .range '\x7b' '~'])
  | "space" => some asciiSpace
  | "upper" => some (.range 'A' 'Z')
  | "word" => some asciiWord
  | "xdigit" => some (unions [asciiDigit, .range 'A' 'F', .range 'a' 'f'])
  | _ => none

/-! ### General categories -/

/-- The names of general categories with their letters. -/
def categoryNames : List (String × List Char) :=
  [("l", ['L']), ("letter", ['L']), ("lu", ['L', 'u']), ("uppercaseletter", ['L', 'u']),
    ("ll", ['L', 'l']), ("lowercaseletter", ['L', 'l']), ("lt", ['L', 't']),
    ("titlecaseletter", ['L', 't']), ("lm", ['L', 'm']), ("modifierletter", ['L', 'm']),
    ("lo", ['L', 'o']), ("otherletter", ['L', 'o']), ("m", ['M']), ("mark", ['M']),
    ("combiningmark", ['M']), ("mn", ['M', 'n']), ("nonspacingmark", ['M', 'n']),
    ("mc", ['M', 'c']), ("spacingmark", ['M', 'c']), ("me", ['M', 'e']),
    ("enclosingmark", ['M', 'e']), ("n", ['N']), ("number", ['N']), ("nd", ['N', 'd']),
    ("decimalnumber", ['N', 'd']), ("digit", ['N', 'd']), ("nl", ['N', 'l']),
    ("letternumber", ['N', 'l']), ("no", ['N', 'o']), ("othernumber", ['N', 'o']), ("p", ['P']),
    ("punctuation", ['P']), ("punct", ['P']), ("pc", ['P', 'c']),
    ("connectorpunctuation", ['P', 'c']), ("pd", ['P', 'd']), ("dashpunctuation", ['P', 'd']),
    ("ps", ['P', 's']), ("openpunctuation", ['P', 's']), ("pe", ['P', 'e']),
    ("closepunctuation", ['P', 'e']), ("pi", ['P', 'i']), ("initialpunctuation", ['P', 'i']),
    ("pf", ['P', 'f']), ("finalpunctuation", ['P', 'f']), ("po", ['P', 'o']),
    ("otherpunctuation", ['P', 'o']), ("s", ['S']), ("symbol", ['S']), ("sm", ['S', 'm']),
    ("mathsymbol", ['S', 'm']), ("sc", ['S', 'c']), ("currencysymbol", ['S', 'c']),
    ("sk", ['S', 'k']), ("modifiersymbol", ['S', 'k']), ("so", ['S', 'o']),
    ("othersymbol", ['S', 'o']), ("z", ['Z']), ("separator", ['Z']), ("zs", ['Z', 's']),
    ("spaceseparator", ['Z', 's']), ("zl", ['Z', 'l']), ("lineseparator", ['Z', 'l']),
    ("zp", ['Z', 'p']), ("paragraphseparator", ['Z', 'p']), ("c", ['C']), ("other", ['C']),
    ("cc", ['C', 'c']), ("control", ['C', 'c']), ("cntrl", ['C', 'c']), ("cf", ['C', 'f']),
    ("format", ['C', 'f']), ("co", ['C', 'o']), ("privateuse", ['C', 'o']), ("cn", ['C', 'n']),
    ("unassigned", ['C', 'n'])]

/-- The set of a general category. -/
def ofCategory (letters : List Char) : CharSet :=
  match letters with
  | [major, minor] => .category major (some minor)
  | [major] => .category major none
  | _ => .empty

/-- The letters with case. -/
def cased : CharSet := unions [.category 'L' (some 'u'), .category 'L' (some 'l'),
  .category 'L' (some 't')]

/-- The set of a general category by a normalized name. -/
def general? (name : String) : Option CharSet :=
  if name = "any" then some full
  else if name = "assigned" then some (.compl (.category 'C' (some 'n')))
  else if name = "ascii" then some ascii
  else if name = "lc" || name = "casedletter" then some cased
  else (categoryNames.find? fun entry => entry.1 = name).map fun entry => ofCategory entry.2

/-- A name of a property in lower case without blanks, dashes, underscores and a
leading `is`. -/
def normalizedName (name : List Char) : String :=
  let isKept := fun c : Char =>
    c.toNat < 128 && c ≠ ' ' && c ≠ '_' && c ≠ '-' && !('\t' ≤ c && c ≤ '\r')
  let kept := (name.filter isKept).map Char.toLower
  match kept with
  | 'i' :: 's' :: 'c' :: [] => "isc"
  | 'i' :: 's' :: rest => String.ofList rest
  | _ => String.ofList kept

/-- The set of a property by its normalized name: a general category or white
space. -/
def property? (name : String) : Option CharSet :=
  if name = "whitespace" || name = "wspace" || name = "space" then some .space else general? name

/-- The set of the characters for which a property has a value, by normalized
names. -/
def propertyValue? (property value : String) : Option CharSet :=
  if property = "generalcategory" || property = "gc" then general? value else none

end CharSet

end RpcSchema
