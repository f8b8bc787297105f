import DeclSurface.Toml.Value

/-!
# Documents of TOML

* `Statement`     — a header or a key with its value.
* `statements`    — the statements of a text.
* `Builder`       — the document that statements build.
* `Toml.parse?`   — the data of a text, if it is TOML.
-/

namespace DeclSurface.Toml

/-- A statement of a document. -/
inductive Statement where
  /-- `[path]` begins a table. -/
  | table (path : List String)
  /-- `[[path]]` begins one more table of an array. -/
  | arrayItem (path : List String)
  /-- `path = value`. -/
  | pair (path : List String) (value : Datum)

namespace Parser

/-- A header of either kind. -/
def header : Parser Statement := do
  char '['
  match ← peek with
  | some '[' => do
    char '['
    let path ← keyPath
    literal "]]".toList
    pure (.arrayItem path)
  | _ => do
    let path ← keyPath
    char ']'
    pure (.table path)

/-- The statements up to the end of the text; `fuel` bounds their number. -/
def statementsFrom : (fuel : Nat) → Parser (List Statement)
  | 0 => fail
  | fuel + 1 => do
    trivia
    match ← peek with
    | none => pure []
    | some '[' => do
      let s ← header
      lineEnd
      let ss ← statementsFrom fuel
      pure (s :: ss)
    | some _ => do
      let (path, x) ← pair value
      lineEnd
      let ss ← statementsFrom fuel
      pure (.pair path x :: ss)

end Parser

/-- A text without a byte order mark at its front. -/
def dropMark : List Char → List Char
  | '\ufeff' :: cs => cs
  | cs => cs

/-- The statements of a text. -/
def statements (cs : List Char) : Option (List Statement) :=
  let cs := dropMark cs
  (Parser.statementsFrom (cs.length + 1) cs).map (·.1)

/-- A document in the making. -/
structure Builder where
  /-- The tables that are complete. -/
  root : Table := {}
  /-- The table that keys are added to. -/
  current : Table := {}
  /-- Where the current table belongs. -/
  path : List String := []
  /-- The current table is an item of an array. -/
  isItem : Bool := false

namespace Builder

/-- The document with its current table in place. -/
def close (b : Builder) : Option Table :=
  if b.path.isEmpty then some b.current
  else
    let (path, key) := Parser.splitKey b.path
    Table.at? false (fun t =>
      if b.isItem then
        match t.get? key with
        | some (.tables items) => some (t.replace key (.tables (items ++ [b.current.toNode])))
        | _ => none
      else
        match t.get? key with
        | none => some (t.append key b.current.toNode)
        | some _ => none) path b.root

/-- The table that a header begins: a new one, or one that was reached and not yet defined. -/
def opened (t : Table) (key : String) : Option Table :=
  match t.get? key with
  | none => some {}
  | some (.table true false fields) => some { fields }
  | some _ => none

/-- The table that a path of keys leads to. -/
def find? : (path : List String) → Table → Option Table
  | [], t => some t
  | k :: ks, t =>
    match t.get? k with
    | none => some {}
    | some (.value _) => none
    | some (.table implicit dotted fields) => find? ks { implicit, dotted, fields }
    | some (.tables items) =>
      match items.getLast? with
      | some (.table implicit dotted fields) => find? ks { implicit, dotted, fields }
      | _ => none

/-- Begins a table. A table that was reached before moves to where it is defined. -/
def openTable (b : Builder) (path : List String) : Option Builder := do
  let root ← b.close
  let (parents, key) := Parser.splitKey path
  let parent ← find? parents root
  let current ← opened parent key
  let root ← Table.at? false (fun t => some (t.erase key)) parents root
  some { root, current, path, isItem := false }

/-- Begins one more table of an array. -/
def openItem (b : Builder) (path : List String) : Option Builder := do
  let root ← b.close
  let (parents, key) := Parser.splitKey path
  let root ← Table.at? false (fun t =>
    match t.get? key with
    | none => some (t.append key (.tables []))
    | some (.tables _) => some t
    | some _ => none) parents root
  some { root, current := {}, path, isItem := true }

/-- The document after one more statement. -/
def step (b : Builder) : Statement → Option Builder
  | .table path => b.openTable path
  | .arrayItem path => b.openItem path
  | .pair path d => do
    let (parents, key) := Parser.splitKey path
    let current ← b.current.put? parents key (.value d)
    some { b with current }

end Builder

/-- The data of a text, if it is TOML. -/
def parse? (s : String) : Option Datum := do
  let ss ← statements s.toList
  let b ← ss.foldlM Builder.step {}
  let root ← b.close
  some root.toNode.toDatum

end DeclSurface.Toml
