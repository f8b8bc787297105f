import DeclSurface.Gate.Basic
import DeclSurface.Gate.Error

/-!
# Reading gates

A gate expression is read token by token. What has been read so far is a `Reader`: the
operands and operators of the parenthesis we are in, those of the parentheses around it, and
what may come next. So reading never looks back, it stops at the first token that no
expression continues with, and it is total by recursion on the tokens.

* `Reader.step`   — one more token.
* `Reader.finish` — the end of the text.
* `Gate.parse`    — the gate a text denotes, or the reason why it denotes none.
-/

namespace DeclSurface.Gate

/-- The conjunction of operands; a single operand stands for itself. -/
def joinAll : List Gate → Gate
  | [g] => g
  | gs => all gs

/-- The disjunction of operands; a single operand stands for itself. -/
def joinAny : List Gate → Gate
  | [g] => g
  | gs => any gs

/-- The gate under a number of negations. -/
def negated : Nat → Gate → Gate
  | 0, g => g
  | n + 1, g => not (negated n g)

/-- The gate that a word denotes on its own. -/
def ofWord (w : String) : Gate :=
  if w = "true" then always else if w = "false" then never else flag w

/-- What has been read since a parenthesis was opened, or since the beginning. -/
structure Level where
  /-- The operands of `||` that are complete. -/
  disjuncts : List Gate := []
  /-- The operands of `&&` that are complete, after the last `||`. -/
  conjuncts : List Gate := []
  /-- The negations in front of the operand that comes next. -/
  negations : Nat := 0
deriving Inhabited

namespace Level

/-- The level after the operand `g`, to which the pending negations apply. -/
def place (l : Level) (g : Gate) : Level :=
  { l with conjuncts := l.conjuncts ++ [negated l.negations g], negations := 0 }

/-- The level after an `||`: the conjunction read so far is complete. -/
def alternative (l : Level) : Level :=
  { l with disjuncts := l.disjuncts ++ [joinAll l.conjuncts], conjuncts := [] }

/-- The gate of a level that is complete. -/
def gate (l : Level) : Gate :=
  joinAny (l.disjuncts ++ [joinAll l.conjuncts])

end Level

/-- What may come next. -/
inductive Phase where
  /-- An operand. -/
  | operand
  /-- The word `defined` has been read: it asks about a flag if a `(` follows. -/
  | defined
  /-- The flag name after `defined (`. -/
  | definedName
  /-- The `)` after `defined ( name`. -/
  | definedClose (name : String)
  /-- An operand is complete: an operator, a `)` or the end. -/
  | operator
deriving DecidableEq

/-- A gate expression read in part. -/
structure Reader where
  /-- The levels outside the current parenthesis, innermost first. -/
  outer : List Level := []
  /-- The level inside the current parenthesis. -/
  level : Level := {}
  /-- What may come next. -/
  phase : Phase := .operand
deriving Inhabited

namespace Reader

/-- The reader after the operand `g`. -/
def place (r : Reader) (g : Gate) : Reader :=
  { r with level := r.level.place g, phase := .operator }

/-- What is missing after a complete operand. -/
def missing (r : Reader) : Expected :=
  if r.outer.isEmpty then .operatorOrEnd else .closingParen

/-- One more token after a complete operand. -/
def stepOperator (r : Reader) : Token → Except Expected Reader
  | .and => .ok { r with phase := .operand }
  | .or => .ok { r with level := r.level.alternative, phase := .operand }
  | .rparen =>
    match r.outer with
    | [] => .error .operatorOrEnd
    | l :: ls => .ok { outer := ls, level := l.place r.level.gate, phase := .operator }
  | _ => .error r.missing

/-- One more token where an operand must come. -/
def stepOperand (r : Reader) : Token → Except Expected Reader
  | .not => .ok { r with level := { r.level with negations := r.level.negations + 1 } }
  | .lparen => .ok { outer := r.level :: r.outer, level := {}, phase := .operand }
  | .word w =>
    if w = "defined" then .ok { r with phase := .defined } else .ok (r.place (ofWord w))
  | _ => .error .operand

/-- One more token, or what should have come in its place. -/
def step (r : Reader) (t : Token) : Except Expected Reader :=
  match r.phase with
  | .operand => r.stepOperand t
  | .operator => r.stepOperator t
  | .defined =>
    if t = .lparen then .ok { r with phase := .definedName }
    else (r.place (flag "defined")).stepOperator t
  | .definedName =>
    match t with
    | .word w => .ok { r with phase := .definedClose w }
    | _ => .error .flagName
  | .definedClose name =>
    if t = .rparen then .ok (r.place (flag name)) else .error .closingParen

/-- The gate when the text ends here, or what is missing. -/
def finish (r : Reader) : Except Expected Gate :=
  match r.phase with
  | .operand => .error .operand
  | .definedName => .error .flagName
  | .definedClose _ => .error .closingParen
  | .defined => complete (r.place (flag "defined"))
  | .operator => complete r
where
  /-- The gate of a reader at a complete operand. -/
  complete (r : Reader) : Except Expected Gate :=
    if r.outer.isEmpty then .ok r.level.gate else .error .closingParen

/-- The gate that the remaining tokens complete. -/
def run (r : Reader) : List Token.Placed → Except GateError Gate
  | [] =>
    match r.finish with
    | .ok g => .ok g
    | .error expected => .error (.unexpectedEnd expected)
  | t :: ts =>
    match r.step t.token with
    | .ok r' => run r' ts
    | .error expected => .error (.unexpectedToken t.token t.offset expected)

end Reader

/-- The gate that a sequence of tokens denotes. -/
def ofTokens (ts : List Token.Placed) : Except GateError Gate :=
  if ts.isEmpty then .error .empty else Reader.run {} ts

/-- The gate that characters denote. -/
def parseChars (cs : List Char) : Except GateError Gate :=
  match Token.scan cs with
  | .error stray => .error (.unexpectedChar stray.found stray.offset)
  | .ok ts => ofTokens ts

/-- The gate that a text denotes. -/
def parse (s : String) : Except GateError Gate :=
  parseChars s.toList

example : (parse "A and not(B|C)").toOption =
    some (.all [.flag "A", .not (.any [.flag "B", .flag "C"])]) := by decide +kernel

end DeclSurface.Gate
