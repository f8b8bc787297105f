import DeclSurface.Data.Shape
import DeclSurface.Fragment

/-!
# Items and constraints as data

An item is a record with its kind as one field beside the fields of that kind. Fields that say
nothing new are left out: an absent identity, and the mark of an item that is not harmless to
repeat.

* `Item.toDatum`, `Item.ofDatum`              — write and read an item.
* `Constraint.toDatum`, `Constraint.ofDatum`  — write and read a constraint.
-/

namespace DeclSurface

/-- A field that is left out when there is no value. -/
def optionalField (name : String) (value : Option String) : List (String × Datum) :=
  match value with
  | some s => [(name, .text s)]
  | none => []

/-! ## Items -/

/-- The fields of a kind, with its name in front. -/
def ItemKind.toFields : ItemKind → List (String × Datum)
  | header path system =>
    [("kind", .text "include"), ("path", .text path), ("system", .bool system)]
  | text t id => [("kind", .text "text"), ("text", .text t)] ++ optionalField "id" id
  | initializer macroName typeName =>
    [("kind", .text "initializer"), ("macro", .text macroName), ("type", .text typeName)]

/-- The fields of an item. -/
def Item.toFields (i : Item) : List (String × Datum) :=
  i.kind.toFields ++ (if i.idempotent then [("idempotent", .bool true)] else [])

/-- An item as data. -/
def Item.toDatum (i : Item) : Datum :=
  .record i.toFields

namespace ItemKind

/-- The names of the kinds. -/
def tags : List String := ["include", "text", "initializer"]

/-- Reads the name of a kind; its number among the kinds is understood too. -/
def readTag : Datum → Except ShapeError String
  | .text s => if tags.contains s then .ok s else .error (.unknownVariant s tags)
  | .integer i =>
    if i < 0 then Shape.mismatch (.integer i) "variant identifier"
    else match tags[i.toNat]? with
      | some tag => .ok tag
      | none =>
        .error (.invalidValue (Datum.integer i).describe "variant index 0 <= i < 3")
  | d => Shape.mismatch d "variant identifier"

/-- The fields of an included header. -/
def headerShape : RecordShape (Option String × Bool) ItemKind where
  name := "struct variant ItemKind::Include"
  fields := ["path", "system"]
  strict := false
  start := (none, false)
  set name d s :=
    if name = "path" then do
      let path ← Shape.text d
      .ok (some path, s.2)
    else do
      let system ← Shape.bool d
      .ok (s.1, system)
  finish s := match s.1 with
    | some path => .ok (.header path s.2)
    | none => .error "path"

/-- The fields of a declaration text. -/
def textShape : RecordShape (Option String × Option String) ItemKind where
  name := "struct variant ItemKind::Text"
  fields := ["text", "id"]
  strict := false
  start := (none, none)
  set name d s :=
    if name = "text" then do
      let t ← Shape.text d
      .ok (some t, s.2)
    else do
      let id ← Shape.optional Shape.text d
      .ok (s.1, id)
  finish s := match s.1 with
    | some t => .ok (.text t s.2)
    | none => .error "text"

/-- The fields of an initializer accessor. -/
def initializerShape : RecordShape (Option String × Option String) ItemKind where
  name := "struct variant ItemKind::Initializer"
  fields := ["macro", "type"]
  strict := false
  start := (none, none)
  set name d s :=
    if name = "macro" then do
      let m ← Shape.text d
      .ok (some m, s.2)
    else do
      let t ← Shape.text d
      .ok (s.1, some t)
  finish s := match s with
    | (some m, some t) => .ok (.initializer m t)
    | (none, _) => .error "macro"
    | (some _, none) => .error "type"

/-- Reads a kind from the fields of an item. -/
def ofFields (fields : List (String × Datum)) : Except ShapeError ItemKind :=
  match fields.lookup "kind" with
  | none => .error (.missingField "kind")
  | some d => do
    let tag ← readTag d
    if tag = "include" then headerShape.readRecord fields
    else if tag = "text" then textShape.readRecord fields
    else initializerShape.readRecord fields

end ItemKind

/-- Reads an item from its fields; the mark of harmless repetition is read first. -/
def Item.ofFields (fields : List (String × Datum)) : Except ShapeError Item := do
  let idempotent ← match fields.lookup "idempotent" with
    | some d => Shape.bool d
    | none => .ok false
  let kind ← ItemKind.ofFields (fields.filter (·.1 != "idempotent"))
  .ok { kind, idempotent }

/-- Reads an item. -/
def Item.ofDatum : Datum → Except ShapeError Item
  | .record fields => Item.ofFields fields
  | d => Shape.mismatch d "struct DeclItem"

/-! ## Variants -/

/-- Reads the name of a variant, with the value that it is given in a record of one field. -/
def readVariant (known : List String) : Datum → Except ShapeError (String × Option Datum)
  | .text s => if known.contains s then .ok (s, none) else .error (.unknownVariant s known)
  | .record [(k, d)] =>
    if known.contains k then .ok (k, some d) else .error (.unknownVariant k known)
  | .record _ => .error (.invalidValue "map" "map with a single key")
  | d => Shape.mismatch d "string or map"

/-- Reads a variant that takes no value. -/
def readPlainVariant (known : List String) (d : Datum) : Except ShapeError String := do
  let (name, value) ← readVariant known d
  match value with
  | none => .ok name
  | some .null => .ok name
  | some d => Shape.mismatch d "unit"

/-! ## Constraints -/

/-- A constraint as data. -/
def Constraint.toDatum : Constraint → Datum
  | mustPrecede name => .record [("must_precede", .text name)]
  | mustFollow name => .record [("must_follow", .text name)]

/-- Reads a constraint. -/
def Constraint.ofDatum (d : Datum) : Except ShapeError Constraint := do
  let (tag, value) ← readVariant ["must_precede", "must_follow"] d
  match value with
  | none => .error (.invalidType "unit variant" "newtype variant")
  | some d =>
    let name ← Shape.text d
    .ok (if tag = "must_precede" then .mustPrecede name else .mustFollow name)

end DeclSurface
