import DeclSurface.Toml.Number
import DeclSurface.Toml.Table

/-!
# Keys and values of TOML

* `Parser.keyPath`  — a key, with dots or without.
* `Parser.value`    — a value, nested up to a limit.
-/

namespace DeclSurface.Toml.Parser

/-- The greatest number of arrays and tables that a value may be nested in. -/
def maxNesting : Nat := 79

/-- The greatest number of parts of a key. -/
def maxKeyParts : Nat := 79

/-- A character of a key without quotes. -/
def isBare (c : Char) : Bool :=
  c.isAlphanum || c = '-' || c = '_'

/-- A part of a key. -/
def simpleKey : Parser String := do
  match ← peek with
  | some '"' => do
    let cs ← quotedKey
    pure (String.ofList cs)
  | some '\'' => do
    let cs ← quotedKey
    pure (String.ofList cs)
  | _ => do
    let cs ← run1 isBare
    pure (String.ofList cs)

/-- The parts of a key after the first; `fuel` bounds their number. -/
def keyRest : (fuel : Nat) → Parser (List String)
  | 0 => fail
  | fuel + 1 => do
    blanks
    match ← peek with
    | some '.' => do
      char '.'
      blanks
      let k ← simpleKey
      let ks ← keyRest fuel
      pure (k :: ks)
    | _ => pure []

/-- A key with the blanks around it. -/
def keyPath : Parser (List String) := do
  blanks
  let k ← simpleKey
  let ks ← keyRest maxKeyParts
  pure (k :: ks)

/-- A path of keys as the path to a table and the key in it. -/
def splitKey (path : List String) : List String × String :=
  (path.dropLast, path.getLast?.getD "")

/-- The items of an array after its bracket; `fuel` bounds their number. -/
def arrayItems (item : Parser Datum) : (fuel : Nat) → Parser (List Datum)
  | 0 => fail
  | fuel + 1 => do
    trivia
    match ← peek with
    | some ']' => do
      char ']'
      pure []
    | _ => do
      let x ← item
      trivia
      match ← peek with
      | some ',' => do
        char ','
        let xs ← arrayItems item fuel
        pure (x :: xs)
      | _ => do
        char ']'
        pure [x]

/-- A key and a value. -/
def pair (item : Parser Datum) : Parser (List String × Datum) := do
  let path ← keyPath
  char '='
  blanks
  let x ← item
  pure (path, x)

/-- The pairs of a table in one line after the first; `fuel` bounds their number. -/
def morePairs (item : Parser Datum) : (fuel : Nat) → Parser (List (List String × Datum))
  | 0 => fail
  | fuel + 1 => do
    blanks
    match ← peek with
    | some ',' => do
      char ','
      let p ← pair item
      let ps ← morePairs item fuel
      pure (p :: ps)
    | _ => do
      char '\x7d'
      pure []

/-- The table of a list of pairs, if no key is defined twice. -/
def tableOf? (pairs : List (List String × Datum)) : Option Datum := do
  let t ← pairs.foldlM (fun (t : Table) (path, d) =>
    let (path, key) := splitKey path
    t.put? path key (.value d)) {}
  some t.toNode.toDatum

/-- A table in one line, after its brace. -/
def inlineTable (item : Parser Datum) : Parser Datum := do
  blanks
  let pairs ← match ← peek with
    | some '\x7d' => do
      char '\x7d'
      pure []
    | _ => do
      let p ← pair item
      let ps ← fun cs => morePairs item (cs.length + 1) cs
      pure (p :: ps)
  match tableOf? pairs with
  | some d => pure d
  | none => fail

/-- A value that holds no others. -/
def scalar : Parser Datum := do
  match ← peek with
  | some '"' => do
    let cs ← string
    pure (.text (String.ofList cs))
  | some '\'' => do
    let cs ← string
    pure (.text (String.ofList cs))
  | some 't' => do
    literal "true".toList
    pure (.bool true)
  | some 'f' => do
    literal "false".toList
    pure (.bool false)
  | _ => number

/-- A value with at most `nesting` arrays and tables inside each other. -/
def valueIn : (nesting : Nat) → Parser Datum
  | 0 => scalar
  | n + 1 => do
    match ← peek with
    | some '[' => do
      char '['
      let xs ← fun cs => arrayItems (valueIn n) (cs.length + 1) cs
      pure (.list xs)
    | some '\x7b' => do
      char '\x7b'
      inlineTable (valueIn n)
    | _ => scalar

/-- A value. -/
def value : Parser Datum :=
  valueIn maxNesting

end DeclSurface.Toml.Parser
