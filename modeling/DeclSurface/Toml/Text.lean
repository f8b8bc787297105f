import DeclSurface.Toml.Lexical

/-!
# Strings of TOML

A string stands between quotes or apostrophes, one or three on either side. Between quotes a
backslash introduces a character or, over several lines, joins lines; between apostrophes it
is an ordinary character.

* `Parser.string`     — a string of any form.
* `Parser.quotedKey`  — a string of one line, as a key.
-/

namespace DeclSurface.Toml.Parser

/-- The value of a hexadecimal digit. -/
def hexDigit? (c : Char) : Option Nat :=
  if c.isDigit then some (c.toNat - '0'.toNat)
  else if 'a' ≤ c && c ≤ 'f' then some (c.toNat - 'a'.toNat + 10)
  else if 'A' ≤ c && c ≤ 'F' then some (c.toNat - 'A'.toNat + 10)
  else none

/-- The number that hexadecimal digits denote. -/
def hexValue? (cs : List Char) : Option Nat :=
  cs.foldlM (fun n c => (hexDigit? c).map (16 * n + ·)) 0

/-- The character of a code point that takes a number of hexadecimal digits. -/
def codePoint (digits : Nat) (cs : List Char) : Option (Char × List Char) := do
  let ds := cs.take digits
  if ds.length < digits then none
  else
    let n ← hexValue? ds
    if n.isValidChar then some (Char.ofNat n, cs.drop digits) else none

/-- The character that is written after a backslash. -/
def escape : List Char → Option (Char × List Char)
  | 'b' :: cs => some ('\x08', cs)
  | 't' :: cs => some ('\t', cs)
  | 'n' :: cs => some ('\n', cs)
  | 'f' :: cs => some ('\x0c', cs)
  | 'r' :: cs => some ('\r', cs)
  | '"' :: cs => some ('"', cs)
  | '\\' :: cs => some ('\\', cs)
  | 'u' :: cs => codePoint 4 cs
  | 'U' :: cs => codePoint 8 cs
  | _ => none

/-! ## One line -/

/-- What stands before the closing quote; `fuel` bounds the characters taken. -/
def basicBody : (fuel : Nat) → Parser (List Char)
  | 0, _ => none
  | _ + 1, '"' :: cs => some ([], cs)
  | fuel + 1, '\\' :: cs => do
    let (c, cs) ← escape cs
    let (rest, cs) ← basicBody fuel cs
    some (c :: rest, cs)
  | fuel + 1, c :: cs =>
    if isVisible c then do
      let (rest, cs) ← basicBody fuel cs
      some (c :: rest, cs)
    else none
  | _ + 1, [] => none

/-- What stands before the closing apostrophe. -/
def literalBody : Parser (List Char) := do
  let cs ← run fun c => isVisible c && c != '\''
  char '\''
  pure cs

/-! ## Several lines -/

/-- The number of times a character stands at the front, up to five. -/
def leading (q : Char) (cs : List Char) : Nat :=
  min 5 (cs.takeWhile (· = q)).length

/-- A text without the blanks and line feeds at its front. -/
def dropBlankLines : List Char → List Char
  | ' ' :: cs => dropBlankLines cs
  | '\t' :: cs => dropBlankLines cs
  | '\n' :: cs => dropBlankLines cs
  | '\r' :: '\n' :: cs => dropBlankLines cs
  | cs => cs

/--
What stands before three closing marks `q`; `fuel` bounds the characters taken. One or two
marks may stand inside, also just before the closing ones. Line feeds are read as such
whether or not a carriage return stands before them.
-/
def longBody (q : Char) : (fuel : Nat) → Parser (List Char)
  | 0, _ => none
  | _ + 1, [] => none
  | fuel + 1, c :: cs =>
    if c = q then
      let n := leading q (c :: cs)
      if n ≥ 3 then some (List.replicate (n - 3) q, (c :: cs).drop n)
      else do
        let (rest, cs) ← longBody q fuel cs
        some (c :: rest, cs)
    else if c = '\n' then do
      let (rest, cs) ← longBody q fuel cs
      some ('\n' :: rest, cs)
    else if c = '\r' then do
      let (_, cs) ← char '\n' cs
      let (rest, cs) ← longBody q fuel cs
      some ('\n' :: rest, cs)
    else if c = '\\' && q = '"' then
      match lineFeed (cs.dropWhile isBlank) with
      | some (_, cs) => longBody q fuel (dropBlankLines cs)
      | none => do
        let (c, cs) ← escape cs
        let (rest, cs) ← longBody q fuel cs
        some (c :: rest, cs)
    else if isVisible c then do
      let (rest, cs) ← longBody q fuel cs
      some (c :: rest, cs)
    else none

/-- A string over several lines, after its three opening marks. -/
def longString (q : Char) : Parser (List Char) := fun cs =>
  let cs := match lineFeed cs with
    | some (_, rest) => rest
    | none => cs
  longBody q (cs.length + 1) cs

/-! ## Strings -/

/-- A string of one line, as a key. -/
def quotedKey : Parser (List Char)
  | '"' :: cs => basicBody (cs.length + 1) cs
  | '\'' :: cs => literalBody cs
  | _ => none

/-- A string of any form. -/
def string : Parser (List Char)
  | '"' :: '"' :: '"' :: cs => longString '"' cs
  | '\'' :: '\'' :: '\'' :: cs => longString '\'' cs
  | cs => quotedKey cs

end DeclSurface.Toml.Parser
