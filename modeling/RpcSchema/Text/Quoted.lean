import RpcSchema.Text.Category

/-!
# Quoted text

Text in quotation marks as error messages show it: quotation marks and
backslashes are escaped, blanks that move the print position have letters, and
every other character that would not show by itself, or would change the one
before it, is written as its code point in hexadecimal.

## Main definitions

* `quoteVisibly` — the text in quotation marks.
-/

namespace RpcSchema

/-- The code point of a character in lower-case hexadecimal, in braces. -/
def codePointEscape (c : Char) : List Char :=
  '\\' :: 'u' :: '\x7b' :: Nat.toDigits 16 c.toNat ++ ['\x7d']

/-- A character as it stands in visibly quoted text. -/
def visibleChar (c : Char) : List Char :=
  if c = '\x00' then ['\\', '0']
  else if c = '\t' then ['\\', 't']
  else if c = '\r' then ['\\', 'r']
  else if c = '\n' then ['\\', 'n']
  else if c = '\\' then ['\\', '\\']
  else if c = '"' then ['\\', '"']
  else if isExtender c || !isPrintable c then codePointEscape c
  else [c]

/-- The text in quotation marks, with every character visible. -/
def quoteVisibly (text : String) : String :=
  String.ofList ('"' :: text.toList.flatMap visibleChar ++ ['"'])

end RpcSchema
