import DeclSurface.Text.Unseen

/-!
# Quoted text

How a text is quoted inside a message: between double quotes, with a backslash before what
would end or change it, and by code point where it could not be seen.

* `quotedChar`  — how a character is written.
* `quoted`      — the text between quotes.
-/

namespace DeclSurface.Text

/-- How a character is written between quotes. -/
def quotedChar (c : Char) : List Char :=
  if c = '\x00' then ['\\', '0']
  else if c = '\t' then ['\\', 't']
  else if c = '\r' then ['\\', 'r']
  else if c = '\n' then ['\\', 'n']
  else if c = '"' || c = '\\' then ['\\', c]
  else if isUnseen c then
    '\\' :: 'u' :: '\x7b' :: (Nat.toDigits 16 c.toNat ++ ['\x7d'])
  else [c]

/-- The text between quotes. -/
def quoted (s : String) : String :=
  String.ofList ('"' :: (s.toList.flatMap quotedChar ++ ['"']))

end DeclSurface.Text
