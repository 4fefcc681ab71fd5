import RpcSchema.Distinct
import RpcSchema.Pattern.CharSet

/-!
# Patterns

Regular patterns of text.  A pattern matches pieces of a text; whether a piece
matches may also depend on the characters next to it.

The pieces are found as sets of positions: from a position in the text, the
positions where a match may end.

No other part of the library uses patterns, and no theorem is about them.  Whether
a name matches is a parameter of the search for properties
(`Store.propertySchema?`), and this is what stands in its place when the search
is run.

## Main definitions

* `Anchor`, `Pattern` — patterns.
* `Pattern.ends` — where the matches from a position end.
* `Pattern.isFoundIn` — whether some piece of a text matches.
-/

namespace RpcSchema

/-- A condition on the characters around a position.  Word boundaries are those of
runs of characters of a set. -/
inductive Anchor
  | textStart
  | textEnd
  | lineStart
  | lineEnd
  /-- As `lineStart`, where a carriage return and a line feed end a line together
  and each on its own. -/
  | returnLineStart
  | returnLineEnd
  | wordBoundary (letters : CharSet)
  | noWordBoundary (letters : CharSet)
  | wordStart (letters : CharSet)
  | wordEnd (letters : CharSet)
  /-- What goes before is no part of a word. -/
  | wordStartHalf (letters : CharSet)
  /-- What follows is no part of a word. -/
  | wordEndHalf (letters : CharSet)
  deriving DecidableEq, Repr

/-- Whether the condition holds between two characters; none stands for the end of
the text. -/
def Anchor.holds (anchor : Anchor) (before after : Option Char) : Bool :=
  match anchor with
  | .textStart => before.isNone
  | .textEnd => after.isNone
  | .lineStart => before.all (· = '\n')
  | .lineEnd => after.all (· = '\n')
  | .returnLineStart => before.all (· = '\n') || (before = some '\r' && after ≠ some '\n')
  | .returnLineEnd => after.all (· = '\r') || (after = some '\n' && before ≠ some '\r')
  | .wordBoundary letters => before.any letters.contains != after.any letters.contains
  | .noWordBoundary letters => before.any letters.contains == after.any letters.contains
  | .wordStart letters => !before.any letters.contains && after.any letters.contains
  | .wordEnd letters => before.any letters.contains && !after.any letters.contains
  | .wordStartHalf letters => !before.any letters.contains
  | .wordEndHalf letters => !after.any letters.contains

/-- A pattern. -/
inductive Pattern
  /-- The empty text. -/
  | blank
  /-- One character of a set. -/
  | set (members : CharSet)
  /-- The empty text where a condition holds. -/
  | anchor (condition : Anchor)
  /-- One pattern, then the other. -/
  | seq (first second : Pattern)
  /-- One pattern or the other. -/
  | alt (left right : Pattern)
  /-- Repetitions of a pattern, at most as many as given if any number is. -/
  | times (body : Pattern) (least : Nat) (most : Option Nat)
  deriving Inhabited

namespace Pattern

/-- Apply a step a number of times. -/
def iterate {α : Type} (step : α → α) : Nat → α → α
  | 0, value => value
  | n + 1, value => iterate step n (step value)

/-- Add the results of a step a number of times. -/
def spread (step : List Nat → List Nat) : Nat → List Nat → List Nat
  | 0, positions => positions
  | n + 1, positions => spread step n (unionOf positions (step positions))

/-- The character before a position. -/
def before? (text : List Char) : Nat → Option Char
  | 0 => none
  | position + 1 => text[position]?

/-- The positions where the matches that start at a position end.

Repetitions beyond the length of the text are without effect: one of them matches
the empty text, and could be left out or done again. -/
def ends (text : List Char) : Pattern → Nat → List Nat
  | .blank, position => [position]
  | .set members, position =>
    if (text[position]?).any members.contains then [position + 1] else []
  | .anchor condition, position =>
    if condition.holds (before? text position) text[position]? then [position] else []
  | .seq first second, position =>
    distinct ((ends text first position).flatMap fun middle => ends text second middle)
  | .alt left right, position => unionOf (ends text left position) (ends text right position)
  | .times body least most, position =>
    let step := fun positions : List Nat => distinct (positions.flatMap fun p => ends text body p)
    let bound := text.length + 1
    let further := match most with
      | none => bound
      | some most => min (most - least) bound
    spread step further (iterate step (min least bound) [position])

/-- Whether some piece of a text matches. -/
def isFoundIn (pattern : Pattern) (text : List Char) : Bool :=
  (List.range (text.length + 1)).any fun position => !(pattern.ends text position).isEmpty

end Pattern

end RpcSchema
