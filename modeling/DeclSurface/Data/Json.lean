import DeclSurface.Data.Basic
import DeclSurface.Number.Shortest

/-!
# JSON

* `Json.quoted`  — a text as a JSON string.
* `Json.pretty`  — a value over several lines, with two blanks for each level.
-/

namespace DeclSurface.Json

/-- How a character is written in a JSON string. -/
def escaped (c : Char) : List Char :=
  if c = '"' then ['\\', '"']
  else if c = '\\' then ['\\', '\\']
  else if c = '\n' then ['\\', 'n']
  else if c = '\r' then ['\\', 'r']
  else if c = '\t' then ['\\', 't']
  else if c = '\x08' then ['\\', 'b']
  else if c = '\x0c' then ['\\', 'f']
  else if c.toNat < 0x20 then
    ['\\', 'u', '0', '0', Nat.digitChar (c.toNat / 16), Nat.digitChar (c.toNat % 16)]
  else [c]

/-- A text as a JSON string. -/
def quoted (s : String) : String :=
  String.ofList ('"' :: (s.toList.flatMap escaped ++ ['"']))

/-- The start of a line at a level. -/
def newline (level : Nat) : String :=
  "\n" ++ String.ofList (List.replicate (2 * level) ' ')

mutual
/-- A value whose lines after the first stand at a level. -/
def prettyAt (level : Nat) : Datum → String
  | .null => "null"
  | .bool true => "true"
  | .bool false => "false"
  | .integer i => toString i
  | .real x => x.text
  | .text s => quoted s
  | .list [] => "[]"
  | .list (x :: xs) =>
    "[" ++ newline (level + 1) ++ prettyAt (level + 1) x ++ prettyItems (level + 1) xs
      ++ newline level ++ "]"
  | .record [] => "\x7b\x7d"
  | .record ((k, x) :: fields) =>
    "\x7b" ++ newline (level + 1) ++ quoted k ++ ": " ++ prettyAt (level + 1) x
      ++ prettyFields (level + 1) fields ++ newline level ++ "\x7d"

/-- The items of a list after the first. -/
def prettyItems (level : Nat) : List Datum → String
  | [] => ""
  | x :: xs => "," ++ newline level ++ prettyAt level x ++ prettyItems level xs

/-- The fields of a record after the first. -/
def prettyFields (level : Nat) : List (String × Datum) → String
  | [] => ""
  | (k, x) :: fields =>
    "," ++ newline level ++ quoted k ++ ": " ++ prettyAt level x ++ prettyFields level fields
end

/-- A value over several lines. -/
def pretty (d : Datum) : String :=
  prettyAt 0 d

end DeclSurface.Json
