import DeclSurface.Data.Basic

/-!
# Tables of TOML

A document is built up statement by statement, and a table may be reached before it is
defined: by the header of a table inside it, or by a key with dots. What may still be added to
it depends on how it came to be.

* `Node`         — a value that is complete, a table, or an array of tables.
* `Table.at?`    — changes the table that a path of keys leads to.
* `Table.put?`   — adds a key with a value; no key is defined twice.
* `Node.toDatum` — a finished tree as data.
-/

namespace DeclSurface.Toml

/-- A part of a document. -/
inductive Node where
  /-- A value, also an array or a table written in one line: nothing can be added to it. -/
  | value (d : Datum)
  /-- A table; see `Table` for the marks. -/
  | table (implicit dotted : Bool) (fields : List (String × Node))
  /-- An array of tables; what is added goes to the last one. -/
  | tables (items : List Node)
deriving Inhabited

/-- A table with its keys in order. -/
structure Table where
  /-- It has been reached and not been defined. -/
  implicit : Bool := false
  /-- It has been reached by a key with dots. -/
  dotted : Bool := false
  fields : List (String × Node) := []
deriving Inhabited

/-- A table as a part of a document. -/
def Table.toNode (t : Table) : Node :=
  .table t.implicit t.dotted t.fields

/-- The part under a key. -/
def Table.get? (t : Table) (key : String) : Option Node :=
  t.fields.lookup key

/-- The table with another part under a key that it has. -/
def Table.replace (t : Table) (key : String) (n : Node) : Table :=
  { t with fields := t.fields.map fun (k, m) => if k = key then (k, n) else (k, m) }

/-- The table with one more key, which comes last. -/
def Table.append (t : Table) (key : String) (n : Node) : Table :=
  { t with fields := t.fields ++ [(key, n)] }

/-- The table without a key. -/
def Table.erase (t : Table) (key : String) : Table :=
  { t with fields := t.fields.filter (·.1 != key) }

/--
Changes the table that a path of keys leads to, and makes the tables on the way that are
missing. `dotted` says that the path is part of a key; such a path does not lead through a
table that has a header of its own.
-/
def Table.at? (dotted : Bool) (change : Table → Option Table) :
    (path : List String) → Table → Option Table
  | [], t => change t
  | k :: ks, t =>
    match t.get? k with
    | none => do
      let sub ← Table.at? dotted change ks { implicit := true, dotted }
      some (t.append k sub.toNode)
    | some (.value _) => none
    | some (.table implicit isDotted fields) =>
      if dotted && !implicit then none
      else do
        let sub ← Table.at? dotted change ks { implicit, dotted := isDotted, fields }
        some (t.replace k sub.toNode)
    | some (.tables items) =>
      match items.getLast? with
      | some (.table implicit isDotted fields) => do
        let sub ← Table.at? dotted change ks { implicit, dotted := isDotted, fields }
        some (t.replace k (.tables (items.dropLast ++ [sub.toNode])))
      | _ => none

/-- Adds a value under a path of keys; a table takes keys with dots or without, not both. -/
def Table.put? (t : Table) (path : List String) (key : String) (n : Node) : Option Table :=
  Table.at? true (fun t =>
    if t.dotted = path.isEmpty then none
    else if (t.get? key).isSome then none
    else some (t.append key n)) path t

mutual
/-- A part of a document as data. -/
def Node.toDatum : Node → Datum
  | .value d => d
  | .table _ _ fields => .record (Node.fieldsToData fields)
  | .tables items => .list (Node.itemsToData items)

/-- The parts of an array as data. -/
def Node.itemsToData : List Node → List Datum
  | [] => []
  | n :: ns => n.toDatum :: Node.itemsToData ns

/-- The parts of a table as data. -/
def Node.fieldsToData : List (String × Node) → List (String × Datum)
  | [] => []
  | (k, n) :: rest => (k, n.toDatum) :: Node.fieldsToData rest
end

end DeclSurface.Toml
