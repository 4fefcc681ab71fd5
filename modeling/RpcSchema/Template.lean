import RpcSchema.Text.Replace

/-!
# Templates

A template is a text with placeholders: a dollar sign and a key in braces.
Filling it replaces the placeholders of one key after the other, so a value
inserted for an early key is searched for the placeholders of later ones.

## Main definitions

* `placeholder` — the placeholder of a key.
* `fill` — a template with values inserted.
-/

namespace RpcSchema

/-- The placeholder of a key. -/
def placeholder (key : String) : String := "$\x7b" ++ key ++ "\x7d"

/-- Replace the placeholders of each key by its value, key by key. -/
def fill (template : String) (values : List (String × String)) : String :=
  values.foldl (fun text entry => replaceText text (placeholder entry.1) entry.2) template

end RpcSchema
