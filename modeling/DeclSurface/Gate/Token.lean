import DeclSurface.Text.Blank
import DeclSurface.Text.Identifier

/-!
# Words of a gate expression

A gate expression is a sequence of tokens with blanks between them. Operators have a symbol
and a word for each; a symbol may be doubled, as it is in C.

* `Token`         — flag names, operators and parentheses.
* `Token.Placed`  — a token with the byte offset at which it starts.
* `Token.ofWord`  — the token an identifier stands for.
* `Token.scan`    — the tokens of a text, or the first character that fits none.
-/

namespace DeclSurface.Gate

/-- A token of a gate expression. -/
inductive Token where
  /-- A flag name, or one of the words `true`, `false` and `defined`. -/
  | word (name : String)
  /-- Written `!` or `not`. -/
  | not
  /-- Written `&`, `&&` or `and`. -/
  | and
  /-- Written `|`, `||` or `or`. -/
  | or
  /-- Written `(`. -/
  | lparen
  /-- Written `)`. -/
  | rparen
deriving DecidableEq, Repr

namespace Token

/-- How a token is shown to the user, whatever spelling it was read from. -/
def text : Token → String
  | word name => name
  | not => "!"
  | and => "&&"
  | or => "||"
  | lparen => "("
  | rparen => ")"

/-- The token that an identifier stands for. -/
def ofWord (w : String) : Token :=
  if w = "and" then and else if w = "or" then or else if w = "not" then not else word w

/-- A token with the byte offset of its first character. -/
structure Placed where
  token : Token
  offset : Nat
deriving DecidableEq, Repr

/-- A character that starts no token, with its byte offset. -/
structure Stray where
  found : Char
  offset : Nat
deriving DecidableEq, Repr

/-- What the characters read last may still grow into. -/
inductive Pending where
  /-- A blank or a complete token. -/
  | none
  /-- An identifier that started at `offset`, of which `read` has been read. -/
  | ident (offset : Nat) (read : List Char)
  /-- An operator symbol that may be doubled. -/
  | symbol (c : Char)

/-- The tokens that a pending word completes when nothing more belongs to it. -/
def Pending.close : Pending → List Placed
  | none => []
  | ident offset read => [⟨ofWord (String.ofList read), offset⟩]
  | symbol _ => []

/-- The tokens that the character `c` at `offset` completes at once, and what it starts. -/
def start (c : Char) (offset : Nat) : Except Stray (List Placed × Pending) :=
  if Text.isBlank c then .ok ([], .none)
  else if c = '(' then .ok ([⟨lparen, offset⟩], .none)
  else if c = ')' then .ok ([⟨rparen, offset⟩], .none)
  else if c = '!' then .ok ([⟨not, offset⟩], .none)
  else if c = '&' then .ok ([⟨and, offset⟩], .symbol c)
  else if c = '|' then .ok ([⟨or, offset⟩], .symbol c)
  else if Text.isIdentStart c then .ok ([], .ident offset [c])
  else .error ⟨c, offset⟩

/-- The tokens that `c` at `offset` completes after `pending`, and what is pending then. -/
def advance (pending : Pending) (c : Char) (offset : Nat) :
    Except Stray (List Placed × Pending) :=
  match pending with
  | .none => start c offset
  | .symbol d => if c = d then .ok ([], .none) else start c offset
  | .ident o read =>
    if Text.isIdentPart c then .ok ([], .ident o (read ++ [c]))
    else match start c offset with
      | .ok (done, next) => .ok ((Pending.ident o read).close ++ done, next)
      | .error e => .error e

/-- The tokens of the characters `cs` from `offset` on, after `pending`. -/
def scanFrom (pending : Pending) (offset : Nat) : List Char → Except Stray (List Placed)
  | [] => .ok pending.close
  | c :: cs =>
    match advance pending c offset with
    | .error e => .error e
    | .ok (done, next) =>
      match scanFrom next (offset + c.utf8Size) cs with
      | .error e => .error e
      | .ok rest => .ok (done ++ rest)

/-- The tokens of a text. -/
def scan (cs : List Char) : Except Stray (List Placed) :=
  scanFrom .none 0 cs

end Token

end DeclSurface.Gate
