import RpcSchema.Pattern.Basic

/-!
# Reading patterns

The written form of patterns.  Flags set the meaning of what follows up to the end
of the group they are in; without flags patterns know all of Unicode and tell
upper and lower case apart.  There is neither look-around nor reference back to
groups, and a text that is no pattern has no reading.

Groups that are open make up a stack, and so do sets of characters within sets.
Each step of reading takes at least one character, so the number of characters
bounds the number of steps.

No function of the library calls `matchesPattern`: it is passed to
`Store.propertySchema?` as `matching` by whoever runs the search.  What is proved of
the search holds for every `matching`, so nothing is proved of patterns.

## Main definitions

* `PatternFlags` — what flags set.
* `readEscape`, `readClass`, `readGroup`, `readCount` — the parts of patterns.
* `Pattern.read` — the pattern that a text stands for.
* `matchesPattern` — whether a pattern is found in a text.
-/

namespace RpcSchema

/-- What the flags of patterns set. -/
structure PatternFlags where
  /-- Upper and lower case are the same. -/
  anyCase : Bool
  /-- The ends of lines are matched like those of the text. -/
  multiLine : Bool
  /-- A dot matches a line feed too. -/
  dotAll : Bool
  /-- A carriage return ends a line as well. -/
  returnEnds : Bool
  /-- Blanks and comments are left out. -/
  spaced : Bool
  /-- Classes are those of Unicode. -/
  unicode : Bool
  deriving DecidableEq, Repr

namespace PatternFlags

/-- The flags that hold without being set. -/
def standard : PatternFlags := ⟨false, false, false, false, false, true⟩

/-- Set the flag of a letter.  Whether long matches are sought first is of no
concern. -/
def set? (flags : PatternFlags) (on : Bool) : Char → Option PatternFlags
  | 'i' => some { flags with anyCase := on }
  | 'm' => some { flags with multiLine := on }
  | 's' => some { flags with dotAll := on }
  | 'R' => some { flags with returnEnds := on }
  | 'x' => some { flags with spaced := on }
  | 'u' => some { flags with unicode := on }
  | 'U' => some flags
  | _ => none

/-- Drop blanks and comments; `inComment` tells that a comment is open. -/
def dropSpace : Bool → List Char → List Char
  | _, [] => []
  | true, c :: rest => dropSpace (c ≠ '\n') rest
  | false, c :: rest =>
    if isSpace c then dropSpace false rest
    else if c = '#' then dropSpace true rest
    else c :: rest

/-- Drop what the flags leave out. -/
def skip (flags : PatternFlags) (cs : List Char) : List Char :=
  if flags.spaced then dropSpace false cs else cs

/-- Take characters from a list of at most `fuel` while they satisfy a test,
dropping what the flags leave out behind each. -/
def takeWithin (flags : PatternFlags) (test : Char → Bool) :
    Nat → List Char → List Char × List Char
  | fuel + 1, c :: rest =>
    if test c then
      let (taken, rest) := takeWithin flags test fuel (flags.skip rest)
      (c :: taken, rest)
    else ([], c :: rest)
  | _, cs => ([], cs)

/-- Take characters while they satisfy a test. -/
def take (flags : PatternFlags) (test : Char → Bool) (cs : List Char) : List Char × List Char :=
  takeWithin flags test cs.length cs

/-- A set with what the flags say about case. -/
def foldSet (flags : PatternFlags) (members : CharSet) : CharSet :=
  if !flags.anyCase then members
  else if flags.unicode then .anyCase members
  else .anyAsciiCase members

/-- The complement of a set if it is `negated`.  Without Unicode there are none. -/
def negate? (flags : PatternFlags) (negated : Bool) (members : CharSet) : Option CharSet :=
  if !negated then some members
  else if flags.unicode then some (.compl members)
  else none

/-- A set by itself, or its complement. -/
def finish? (flags : PatternFlags) (negated : Bool) (members : CharSet) : Option CharSet :=
  flags.negate? negated (flags.foldSet members)

/-- The characters of words. -/
def word (flags : PatternFlags) : CharSet := if flags.unicode then .word else .asciiWord

/-- The set of any character, which stays within Unicode. -/
def dot? (flags : PatternFlags) : Option CharSet :=
  if !flags.unicode then none
  else if flags.dotAll then some .full
  else if flags.returnEnds then some (.compl (.ofList ['\r', '\n']))
  else some (.compl (.single '\n'))

/-- The start of the text or of a line. -/
def startAnchor (flags : PatternFlags) : Anchor :=
  if !flags.multiLine then .textStart
  else if flags.returnEnds then .returnLineStart
  else .lineStart

/-- The end of the text or of a line. -/
def endAnchor (flags : PatternFlags) : Anchor :=
  if !flags.multiLine then .textEnd
  else if flags.returnEnds then .returnLineEnd
  else .lineEnd

end PatternFlags

/-! ### Escapes -/

/-- What stands behind a backslash. -/
inductive Escape
  | literal (c : Char)
  | set (members : CharSet)
  | anchor (condition : Anchor)

/-- Characters with a meaning of their own. -/
def metaCharacters : List Char :=
  ['\\', '.', '+', '*', '?', '(', ')', '|', '[', ']', '\x7b', '\x7d', '^', '$', '#', '&', '-', '~']

/-- Whether a character may be escaped to stand for itself: any ASCII character but
letters, digits and angle brackets. -/
def isEscapable (c : Char) : Bool :=
  metaCharacters.contains c || (c.toNat < 128 && !c.isAlphanum && c ≠ '<' && c ≠ '>')

/-- The value of a hexadecimal digit. -/
def hexDigitValue? (c : Char) : Option Nat :=
  if c.isDigit then some (c.toNat - 48)
  else if 'a' ≤ c && c ≤ 'f' then some (c.toNat - 87)
  else if 'A' ≤ c && c ≤ 'F' then some (c.toNat - 55)
  else none

/-- The character of a code point. -/
def charOfPoint? (n : Nat) : Option Char := if n.isValidChar then some (Char.ofNat n) else none

/-- The value of hexadecimal digits, of which there is at least one. -/
def hexValue? (digits : List Char) : Option Nat :=
  if digits.isEmpty then none
  else digits.foldlM (fun n c => (hexDigitValue? c).map fun d => n * 16 + d) 0

/-- Read a number of hexadecimal digits. -/
def readHexDigits (flags : PatternFlags) : Nat → List Char → Option (List Char × List Char)
  | 0, cs => some ([], cs)
  | n + 1, cs =>
    match flags.skip cs with
    | [] => none
    | c :: rest => (readHexDigits flags n rest).map fun (digits, rest) => (c :: digits, rest)

/-- Read text in braces, after the opening one. -/
def readBraced (flags : PatternFlags) (cs : List Char) : Option (List Char × List Char) :=
  match flags.take (· ≠ '\x7d') (flags.skip cs) with
  | (taken, _ :: rest) => some (taken, rest)
  | (_, []) => none

/-- Read a code point: so many hexadecimal digits, or any number in braces.
Without Unicode two digits are an ASCII character. -/
def readCodePoint (flags : PatternFlags) (size : Nat) (cs : List Char) :
    Option (Escape × List Char) := do
  match flags.skip cs with
  | '\x7b' :: rest =>
    let (digits, rest) ← readBraced flags rest
    let c ← charOfPoint? (← hexValue? digits)
    some (.literal c, rest)
  | cs =>
    let (digits, rest) ← readHexDigits flags size cs
    let c ← charOfPoint? (← hexValue? digits)
    if !flags.unicode && size = 2 && 128 ≤ c.toNat then none
    else some (.literal c, rest)

/-- The set of the characters with a property, which a name alone or a name and a
value give, and whether it is to be complemented. -/
def propertySet? (text : List Char) : Option (CharSet × Bool) :=
  let isMark := fun c : Char => c = '!' || c = ':' || c = '='
  let valued := fun (negated : Bool) (name value : List Char) =>
    (CharSet.propertyValue? (CharSet.normalizedName name) (CharSet.normalizedName value)).map
      fun members => (members, negated)
  match text.takeWhile (!isMark ·), text.dropWhile (!isMark ·) with
  | name, '!' :: '=' :: value => valued true name value
  | name, ':' :: value => valued false name value
  | name, '=' :: value => valued false name value
  | _, _ => (CharSet.property? (CharSet.normalizedName text)).map fun members => (members, false)

/-- Read a property: one letter, or a text in braces. -/
def readProperty (flags : PatternFlags) (negated : Bool) (cs : List Char) :
    Option (Escape × List Char) := do
  if !flags.unicode then none
  else
    let (text, rest) ← match flags.skip cs with
      | '\x7b' :: rest => readBraced flags rest
      | '\\' :: _ => none
      | c :: rest => some ([c], rest)
      | [] => none
    let (members, differs) ← propertySet? text
    let members ← flags.finish? (negated != differs) members
    some (.set members, rest)

/-- The word boundaries with names. -/
def namedBoundary? (letters : CharSet) : String → Option Anchor
  | "start" => some (.wordStart letters)
  | "end" => some (.wordEnd letters)
  | "start-half" => some (.wordStartHalf letters)
  | "end-half" => some (.wordEndHalf letters)
  | _ => none

/-- Read a word boundary: a name in braces says which one.  Anything else in braces
is a number of repetitions and none of its concern. -/
def readBoundary (flags : PatternFlags) (cs : List Char) : Option (Escape × List Char) :=
  let isNameChar := fun c : Char => c.isAlpha || c = '-'
  match cs with
  | '\x7b' :: rest =>
    match flags.take isNameChar (flags.skip rest) with
    | ([], _) => some (.anchor (.wordBoundary flags.word), cs)
    | (name, '\x7d' :: rest) =>
      (namedBoundary? flags.word (String.ofList name)).map fun anchor => (.anchor anchor, rest)
    | _ => none
  | _ => some (.anchor (.wordBoundary flags.word), cs)

/-- The classes of characters with a letter of their own. -/
def letterClass? (flags : PatternFlags) : Char → Option CharSet
  | 'd' => some (if flags.unicode then .digit else .asciiDigit)
  | 's' => some (if flags.unicode then .space else .asciiSpace)
  | 'w' => some flags.word
  | _ => none

/-- Read what stands behind a backslash. -/
def readEscape (flags : PatternFlags) : List Char → Option (Escape × List Char)
  | [] => none
  | c :: rest =>
    let literal := fun c : Char => some (Escape.literal c, rest)
    if isEscapable c then literal c
    else
      match letterClass? flags c.toLower with
      | some members =>
        (flags.negate? c.isUpper members).map fun members => (.set members, rest)
      | none =>
        match c with
        | 'x' => readCodePoint flags 2 rest
        | 'u' => readCodePoint flags 4 rest
        | 'U' => readCodePoint flags 8 rest
        | 'p' => readProperty flags false rest
        | 'P' => readProperty flags true rest
        | 'a' => literal '\x07'
        | 'f' => literal '\x0c'
        | 't' => literal '\t'
        | 'n' => literal '\n'
        | 'r' => literal '\r'
        | 'v' => literal '\x0b'
        | 'A' => some (.anchor .textStart, rest)
        | 'z' => some (.anchor .textEnd, rest)
        | 'b' => readBoundary flags rest
        | 'B' => some (.anchor (.noWordBoundary flags.word), rest)
        | '<' => some (.anchor (.wordStart flags.word), rest)
        | '>' => some (.anchor (.wordEnd flags.word), rest)
        | _ => none

/-! ### Sets in brackets -/

/-- What joins two sets in brackets. -/
inductive SetOperator
  | inter
  | diff
  | symmDiff
  deriving DecidableEq, Repr

/-- The join of two sets. -/
def SetOperator.apply (flags : PatternFlags) (operator : SetOperator) (a b : CharSet) : CharSet :=
  let a := flags.foldSet a
  let b := flags.foldSet b
  match operator with
  | .inter => .inter a b
  | .diff => .diff a b
  | .symmDiff => .symmDiff a b

/-- A set in brackets that is open. -/
structure OpenSet where
  negated : Bool
  /-- The left side of an operator that waits for its right side. -/
  pending : Option (CharSet × SetOperator)
  /-- The members since then. -/
  members : CharSet

namespace OpenSet

/-- Add members. -/
def insert (frame : OpenSet) (members : CharSet) : OpenSet :=
  { frame with members := .union frame.members members }

/-- The set so far. -/
def value (flags : PatternFlags) (frame : OpenSet) : CharSet :=
  match frame.pending with
  | some (left, operator) => operator.apply flags left frame.members
  | none => frame.members

/-- Put an operator behind the set so far. -/
def operate (flags : PatternFlags) (frame : OpenSet) (operator : SetOperator) : OpenSet :=
  { frame with pending := some (frame.value flags, operator), members := .empty }

end OpenSet

/-- Open a set, after its bracket.  A circumflex negates it; dashes in front stand
for themselves, and so does a closing bracket at the very front. -/
def openSet (flags : PatternFlags) (cs : List Char) : OpenSet × List Char :=
  let (negated, cs) := match flags.skip cs with
    | '^' :: rest => (true, flags.skip rest)
    | cs => (false, cs)
  match flags.take (· = '-') cs with
  | ([], ']' :: rest) => (⟨negated, none, .single ']'⟩, rest)
  | ([], cs) => (⟨negated, none, .empty⟩, cs)
  | (_, cs) => (⟨negated, none, .single '-'⟩, cs)

/-- Read a named set of ASCII characters, after its bracket. -/
def readNamedSet (flags : PatternFlags) (cs : List Char) : Option (Option CharSet × List Char) :=
  match cs with
  | ':' :: rest =>
    let (negated, rest) := match rest with
      | '^' :: rest => (true, rest)
      | _ => (false, rest)
    match rest.dropWhile (· ≠ ':') with
    | ':' :: ']' :: behind =>
      (CharSet.ascii? (String.ofList (rest.takeWhile (· ≠ ':')))).map fun members =>
        (flags.finish? negated members, behind)
    | _ => none
  | _ => none

/-- A literal character as a member of a set, which without Unicode is ASCII. -/
def literalMember? (flags : PatternFlags) (c : Char) : Option Char :=
  if !flags.unicode && 128 ≤ c.toNat then none else some c

/-- Read one member of a set. -/
def readMember (flags : PatternFlags) : List Char → Option (Escape × List Char)
  | [] => none
  | '\\' :: rest => readEscape flags rest
  | c :: rest => some (.literal c, rest)

/-- The character of a literal member. -/
def Escape.literal? (flags : PatternFlags) : Escape → Option Char
  | .literal c => literalMember? flags c
  | _ => none

/-- Read one member of a set, or a range of characters. -/
def readMembers (flags : PatternFlags) (cs : List Char) : Option (CharSet × List Char) := do
  let (first, rest) ← readMember flags cs
  let lone := fun rest : List Char =>
    match first with
    | .set members => some (members, rest)
    | other => (other.literal? flags).map fun c => (CharSet.single c, rest)
  match flags.skip rest with
  | [] => none
  | '-' :: behind =>
    match flags.skip behind with
    | [] => none
    | ']' :: _ => lone ('-' :: behind)
    | '-' :: _ => lone ('-' :: behind)
    | behind =>
      let (last, rest) ← readMember flags behind
      let first ← first.literal? flags
      let last ← last.literal? flags
      if first ≤ last then some (.range first last, rest) else none
  | rest => lone rest

/-- Read a set in brackets, after the first one.  `outer` are the sets it lies in,
and `fuel` is at least the number of characters. -/
def readSet (flags : PatternFlags) :
    Nat → List OpenSet → OpenSet → List Char → Option (CharSet × List Char)
  | 0, _, _, _ => none
  | fuel + 1, outer, frame, cs =>
    match flags.skip cs with
    | [] => none
    | '[' :: rest =>
      match readNamedSet flags rest with
      | some (members, rest) => do
        readSet flags fuel outer (frame.insert (← members)) rest
      | none =>
        let (inner, rest) := openSet flags rest
        readSet flags fuel (frame :: outer) inner rest
    | ']' :: rest => do
      let members ← flags.finish? frame.negated (frame.value flags)
      match outer with
      | [] => some (members, rest)
      | enclosing :: outer => readSet flags fuel outer (enclosing.insert members) rest
    | '&' :: '&' :: rest => readSet flags fuel outer (frame.operate flags .inter) rest
    | '-' :: '-' :: rest => readSet flags fuel outer (frame.operate flags .diff) rest
    | '~' :: '~' :: rest => readSet flags fuel outer (frame.operate flags .symmDiff) rest
    | cs => do
      let (members, rest) ← readMembers flags cs
      readSet flags fuel outer (frame.insert members) rest

/-- Read a set in brackets, after the first bracket. -/
def readClass (flags : PatternFlags) (cs : List Char) : Option (CharSet × List Char) :=
  let (frame, rest) := openSet flags cs
  readSet flags (cs.length + 1) [] frame rest

/-! ### Groups -/

/-- What stands behind an opening parenthesis. -/
inductive GroupStart
  /-- A group with flags of its own. -/
  | group (flags : PatternFlags)
  /-- A group with a name. -/
  | named (name : List Char)
  /-- Flags for the rest of the enclosing group. -/
  | directive (flags : PatternFlags)

/-- Read flags up to a colon or a closing parenthesis.  `seen` are the letters so
far, and `on` tells that none was behind a dash. -/
def readFlags (flags : PatternFlags) (seen : List Char) (on : Bool) :
    List Char → Option (PatternFlags × List Char)
  | [] => none
  | c :: rest =>
    if c = ':' || c = ')' then
      if seen.head? = some '-' then none else some (flags, c :: rest)
    else if seen.contains c then none
    else if c = '-' then readFlags flags (c :: seen) false rest
    else (flags.set? on c).bind fun flags => readFlags flags (c :: seen) on rest

/-- Whether a character may stand in the name of a group, or at its front. -/
def isGroupNameChar (front : Bool) (c : Char) : Bool :=
  let category := Category.of c
  c = '_' || category.major = 'L' || category = ⟨'N', 'l'⟩ ||
    (!front && (category.major = 'N' || c = '.' || c = '[' || c = ']'))

/-- Read the name of a group up to its angle bracket. -/
def readGroupName (cs : List Char) : Option (GroupStart × List Char) :=
  match cs.takeWhile (· ≠ '>'), cs.dropWhile (· ≠ '>') with
  | first :: others, _ :: rest =>
    if isGroupNameChar true first && others.all (isGroupNameChar false) then
      some (.named (first :: others), rest)
    else none
  | _, _ => none

/-- Read what stands behind an opening parenthesis. -/
def readGroup (flags : PatternFlags) (cs : List Char) : Option (GroupStart × List Char) :=
  match flags.skip cs with
  | '?' :: 'P' :: '<' :: rest => readGroupName rest
  | '?' :: '<' :: '=' :: _ => none
  | '?' :: '<' :: '!' :: _ => none
  | '?' :: '<' :: rest => readGroupName rest
  | '?' :: ')' :: _ => none
  | '?' :: rest => do
    match ← readFlags flags [] true rest with
    | (flags, ')' :: rest) => some (.directive flags, rest)
    | (flags, _ :: rest) => some (.group flags, rest)
    | (_, []) => none
  | cs => some (.group flags, cs)

/-! ### Numbers of repetitions -/

/-- The largest number of repetitions. -/
def maxCount : Nat := Nat.pow 2 32 - 1

/-- Read a number of repetitions between blanks. -/
def readNumeral (flags : PatternFlags) (cs : List Char) : Option (Nat × List Char) :=
  let (digits, rest) := flags.take Char.isDigit (cs.dropWhile isSpace)
  let count := digits.foldl (fun n c => n * 10 + (c.toNat - 48)) 0
  if digits.isEmpty || maxCount < count then none
  else some (count, flags.skip (rest.dropWhile isSpace))

/-- Read numbers of repetitions in braces, after the opening one. -/
def readCount (flags : PatternFlags) (cs : List Char) :
    Option ((Nat × Option Nat) × List Char) := do
  let (least, rest) ← readNumeral flags (flags.skip cs)
  match rest with
  | '\x7d' :: rest => some ((least, some least), rest)
  | ',' :: rest =>
    match flags.skip rest with
    | '\x7d' :: rest => some ((least, none), rest)
    | rest =>
      let (most, rest) ← readNumeral flags rest
      match rest with
      | '\x7d' :: rest => if least ≤ most then some ((least, some most), rest) else none
      | _ => none
  | _ => none

/-! ### Patterns -/

/-- A group that is open, or the whole pattern. -/
structure OpenGroup where
  /-- The alternatives before the current one. -/
  alternatives : Option Pattern
  /-- The current alternative up to its last item. -/
  start : Pattern
  /-- The last item, which may be repeated. -/
  last : Option Pattern
  /-- The flags that hold behind the group. -/
  outside : PatternFlags

namespace OpenGroup

/-- A group without content. -/
def blank (outside : PatternFlags) : OpenGroup := ⟨none, .blank, none, outside⟩

/-- The current alternative. -/
def current (group : OpenGroup) : Pattern :=
  match group.last with
  | some last => .seq group.start last
  | none => group.start

/-- The content of the group. -/
def content (group : OpenGroup) : Pattern :=
  match group.alternatives with
  | some others => .alt others group.current
  | none => group.current

/-- Append an item; none is an item that cannot be repeated and matches the empty
text. -/
def push (group : OpenGroup) (item : Option Pattern) : OpenGroup :=
  { group with start := group.current, last := item }

/-- Begin another alternative. -/
def branch (group : OpenGroup) : OpenGroup :=
  { blank group.outside with alternatives := some group.content }

/-- Repeat the last item. -/
def repeat? (group : OpenGroup) (least : Nat) (most : Option Nat) : Option OpenGroup :=
  group.last.map fun item => { group with last := some (.times item least most) }

end OpenGroup

/-- A pattern that is partly read. -/
structure PatternState where
  flags : PatternFlags
  group : OpenGroup
  /-- The groups around it, from the inside out. -/
  outer : List OpenGroup
  /-- The names of groups so far. -/
  names : List (List Char)

namespace PatternState

/-- Append an item to the current group. -/
def push (state : PatternState) (item : Pattern) : PatternState :=
  { state with group := state.group.push (some item) }

/-- Open a group. -/
def enter (state : PatternState) (flags : PatternFlags) : PatternState :=
  { state with flags, group := .blank state.flags, outer := state.group :: state.outer }

/-- Read on after an opening parenthesis. -/
def openGroup (state : PatternState) (cs : List Char) : Option (PatternState × List Char) := do
  match ← readGroup state.flags cs with
  | (.directive flags, rest) => some ({ state with flags, group := state.group.push none }, rest)
  | (.group flags, rest) => some (state.enter flags, rest)
  | (.named name, rest) =>
    if state.names.contains name then none
    else some ({ state.enter state.flags with names := name :: state.names }, rest)

/-- Close the current group. -/
def closeGroup? (state : PatternState) : Option PatternState :=
  match state.outer with
  | [] => none
  | enclosing :: outer =>
    some { state with
      flags := state.group.outside, group := enclosing.push (some state.group.content), outer }

/-- Repeat the last item. -/
def repeat? (state : PatternState) (least : Nat) (most : Option Nat) : Option PatternState :=
  (state.group.repeat? least most).map fun group => { state with group }

/-- Drop the mark that asks for few repetitions first. -/
def dropLazy : List Char → List Char
  | '?' :: rest => rest
  | cs => cs

/-- Append what a backslash stands for. -/
def pushEscape (state : PatternState) : Escape → PatternState
  | .literal c => state.push (.set (state.flags.foldSet (.single c)))
  | .set members => state.push (.set members)
  | .anchor condition => state.push (.anchor condition)

/-- Read the next item, which begins with a character. -/
def step (state : PatternState) (c : Char) (rest : List Char) :
    Option (PatternState × List Char) :=
  match c with
  | '(' => state.openGroup rest
  | ')' => state.closeGroup?.map fun state => (state, rest)
  | '|' => some ({ state with group := state.group.branch }, rest)
  | '?' => (state.repeat? 0 (some 1)).map fun state => (state, dropLazy rest)
  | '*' => (state.repeat? 0 none).map fun state => (state, dropLazy rest)
  | '+' => (state.repeat? 1 none).map fun state => (state, dropLazy rest)
  | '\x7b' => do
    let ((least, most), rest) ← readCount state.flags rest
    let state ← state.repeat? least most
    some (state, dropLazy (state.flags.skip rest))
  | '[' => do
    let (members, rest) ← readClass state.flags rest
    some (state.push (.set members), rest)
  | '\\' => do
    let (escape, rest) ← readEscape state.flags rest
    some (state.pushEscape escape, rest)
  | '.' => state.flags.dot?.map fun members => (state.push (.set members), rest)
  | '^' => some (state.push (.anchor state.flags.startAnchor), rest)
  | '$' => some (state.push (.anchor state.flags.endAnchor), rest)
  | c => some (state.pushEscape (.literal c), rest)

/-- Read to the end; `fuel` is more than the number of characters. -/
def run : Nat → PatternState → List Char → Option Pattern
  | 0, _, _ => none
  | fuel + 1, state, cs =>
    match state.flags.skip cs with
    | [] => if state.outer.isEmpty then some state.group.content else none
    | c :: rest => do
      let (state, rest) ← state.step c rest
      run fuel state rest

end PatternState

/-- The pattern that a text stands for. -/
def Pattern.read (text : String) : Option Pattern :=
  let cs := text.toList
  PatternState.run (cs.length + 1) ⟨.standard, .blank .standard, [], []⟩ cs

/-- Whether a pattern is found in a text.  A text that is no pattern is found
nowhere. -/
def matchesPattern (pattern text : String) : Bool :=
  (Pattern.read pattern).any fun pattern => pattern.isFoundIn text.toList

end RpcSchema
