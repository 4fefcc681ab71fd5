import RpcSchema.Text.Replace

/-!
# References

A reference is a text: an optional document id, then a fragment that starts with
a number sign.  A reference without a number sign names a whole document.

## Main definitions

* `Reference.split` — the document id and the fragment.
* `Reference.name` — the name of the schema referred to.
* `Reference.toComponent` — the local reference to a named component.
-/

namespace RpcSchema

namespace Reference

/-- The document id, if there is one, and the fragment. -/
def split (reference : String) : Option String × String :=
  let cs := reference.toList
  match cs.takeWhile (· ≠ '#'), cs.dropWhile (· ≠ '#') with
  | _, [] => (some reference, "#")
  | [], _ => (none, reference)
  | id, fragment => (some (String.ofList id), String.ofList fragment)

/-- The fragment. -/
def fragment (reference : String) : String := (split reference).2

/-- The last segment of the fragment: the name of the schema referred to. -/
def name (reference : String) : String :=
  String.ofList (lastPiece '/' (fragment reference).toList)

/-- Where a document keeps its named components. -/
def componentsPointer : String := "#/components/schemas"

/-- The local reference to a named component. -/
def toComponent (name : String) : String := componentsPointer ++ "/" ++ name

end Reference

end RpcSchema
