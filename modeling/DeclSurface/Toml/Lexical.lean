/-!
# Lexical elements of TOML

Blanks, line ends and comments, as parsers on characters. A parser takes characters from the
front of a list, or fails; every text that is no TOML fails in the same way, so a failure
carries no cause.

* `Parser`            — what takes characters from the front of a text.
* `Parser.blanks`, `Parser.lineEnd`, `Parser.trivia` — what stands between the other elements.
-/

namespace DeclSurface.Toml

/-- Takes characters from the front of a text, or fails. -/
abbrev Parser (α : Type) : Type := StateT (List Char) Option α

namespace Parser

/-- Fails. -/
def fail {α : Type} : Parser α := fun _ => none

/-- The next character, which is left where it is. -/
def peek : Parser (Option Char) := fun cs => some (cs.head?, cs)

/-- Takes one character. -/
def char (c : Char) : Parser Unit
  | [] => none
  | d :: cs => if c = d then some ((), cs) else none

/-- Takes the characters of a text. -/
def literal : List Char → Parser Unit
  | [], cs => some ((), cs)
  | c :: ls, cs => do
    let (_, cs) ← char c cs
    literal ls cs

/-- Takes the longest run of characters that pass a test. -/
def run (p : Char → Bool) : Parser (List Char) := fun cs => some (cs.takeWhile p, cs.dropWhile p)

/-- Takes a run that is not empty. -/
def run1 (p : Char → Bool) : Parser (List Char) := do
  let cs ← run p
  if cs.isEmpty then fail else pure cs

/-- Takes what `p` takes, or nothing where `p` fails. -/
def optional {α : Type} (p : Parser α) : Parser (Option α) := fun cs =>
  match p cs with
  | some (x, rest) => some (some x, rest)
  | none => some (none, cs)

/-- Takes what the first of two parsers takes that does not fail. -/
def either {α : Type} (p q : Parser α) : Parser α := fun cs =>
  match p cs with
  | some r => some r
  | none => q cs

/-- A blank inside a line. -/
def isBlank (c : Char) : Bool :=
  c = ' ' || c = '\t'

/-- A character that may stand in a comment or, quotes and backslashes apart, in a string. -/
def isVisible (c : Char) : Bool :=
  c = '\t' || (0x20 ≤ c.toNat && c.toNat ≤ 0x7e) || 0x80 ≤ c.toNat

/-- Takes the blanks up to the next element of a line. -/
def blanks : Parser Unit := do
  let _ ← run isBlank

/-- Takes a line feed, with a carriage return before it or not. -/
def lineFeed : Parser Unit
  | '\n' :: cs => some ((), cs)
  | '\r' :: '\n' :: cs => some ((), cs)
  | _ => none

/-- Takes a comment if there is one. -/
def comment : Parser Unit := do
  match ← peek with
  | some '#' => let _ ← run isVisible
  | _ => pure ()

/-- Takes the rest of a line: a comment, and a line feed or the end of the text. -/
def lineEnd : Parser Unit := do
  blanks
  comment
  match ← peek with
  | none => pure ()
  | some _ => lineFeed

/-- Takes blanks, line feeds and comments; `fuel` bounds the lines taken. -/
def triviaLines : (fuel : Nat) → Parser Unit
  | 0 => pure ()
  | fuel + 1 => do
    blanks
    match ← peek with
    | some '#' => do
      comment
      match ← peek with
      | none => pure ()
      | some _ => do
        lineFeed
        triviaLines fuel
    | some '\n' => do
      lineFeed
      triviaLines fuel
    | some '\r' => do
      lineFeed
      triviaLines fuel
    | _ => pure ()

/-- Takes blanks, line feeds and comments. -/
def trivia : Parser Unit := fun cs => triviaLines (cs.length + 1) cs

end Parser

end DeclSurface.Toml
