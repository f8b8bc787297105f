import DeclSurface.Gate.Token

/-!
# Why a gate expression cannot be read

* `GateError`          — the four causes.
* `GateError.message`  — the wording of each.
-/

namespace DeclSurface

namespace Gate

/-- What could have stood where reading a gate expression stopped. -/
inductive Expected where
  /-- A flag, a negation or a parenthesis. -/
  | operand
  /-- An operator or the end, outside parentheses. -/
  | operatorOrEnd
  /-- The flag name inside `defined(…)`. -/
  | flagName
  /-- The parenthesis that closes an open one. -/
  | closingParen
deriving DecidableEq, Repr

/-- The wording of an expectation. -/
def Expected.text : Expected → String
  | operand => "a flag name, `!` or `(`"
  | operatorOrEnd => "`&&`, `||` or end of expression"
  | flagName => "a flag name"
  | closingParen => "`)`"

end Gate

/-- Why a text is no gate expression. -/
inductive GateError where
  /-- The text holds no token. -/
  | empty
  /-- The character at a byte offset starts no token. -/
  | unexpectedChar (found : Char) (offset : Nat)
  /-- The token at a byte offset cannot follow what stands before it. -/
  | unexpectedToken (found : Gate.Token) (offset : Nat) (expected : Gate.Expected)
  /-- The text stops where it cannot. -/
  | unexpectedEnd (expected : Gate.Expected)
deriving DecidableEq, Repr

/-- The wording of a gate error. -/
def GateError.message : GateError → String
  | empty => "empty gate expression"
  | unexpectedChar found offset =>
    "unexpected character `" ++ found.toString ++ "` at offset " ++ toString offset
  | unexpectedToken found offset expected =>
    "unexpected `" ++ found.text ++ "` at offset " ++ toString offset ++ ", expected "
      ++ expected.text
  | unexpectedEnd expected =>
    "unexpected end of gate expression, expected " ++ expected.text

end DeclSurface
