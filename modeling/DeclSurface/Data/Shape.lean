import DeclSurface.Data.Basic
import DeclSurface.Number.Shortest
import DeclSurface.Text.Quoted

/-!
# Shapes

What a value of a data format should be, and how it fails to be that. A record is read field
by field in document order, so of two defects the first in the text is reported; fields that
are missing are reported after that, in the order in which the shape lists them. A record may
also be written as the list of its fields.

* `ShapeError`          — the defects, and `ShapeError.message` their wording.
* `Shape.text`, `Shape.nat`, `Shape.listOf`, … — scalars and lists.
* `RecordShape`         — the fields of a record, and `RecordShape.read` reads one.
-/

namespace DeclSurface

/-- Names as alternatives in a message. -/
def alternatives : List String → String
  | [] => ""
  | [a] => "`" ++ a ++ "`"
  | [a, b] => "`" ++ a ++ "` or `" ++ b ++ "`"
  | as => "one of " ++ ", ".intercalate (as.map fun a => "`" ++ a ++ "`")

/-- What a value is, in words. -/
def Datum.describe : Datum → String
  | null => "null"
  | bool true => "boolean `true`"
  | bool false => "boolean `false`"
  | integer i => "integer `" ++ toString i ++ "`"
  | real x => "floating point `" ++ x.text ++ "`"
  | text s => "string " ++ Text.quoted s
  | list _ => "sequence"
  | record _ => "map"

/-- How a value fails to have a shape. -/
inductive ShapeError where
  /-- The value is of another kind than expected. -/
  | invalidType (found expected : String)
  /-- The value is of the right kind and still not what is expected. -/
  | invalidValue (found expected : String)
  /-- A list stands for a record and has the wrong number of items. -/
  | invalidLength (length : Nat) (expected : String)
  | missingField (name : String)
  | unknownField (name : String) (known : List String)
  | unknownVariant (name : String) (known : List String)
  /-- A defect in words of its own. -/
  | custom (message : String)
deriving DecidableEq, Repr

/-- The wording of a shape error. -/
def ShapeError.message : ShapeError → String
  | invalidType found expected => "invalid type: " ++ found ++ ", expected " ++ expected
  | invalidValue found expected => "invalid value: " ++ found ++ ", expected " ++ expected
  | invalidLength length expected =>
    "invalid length " ++ toString length ++ ", expected " ++ expected
  | missingField name => "missing field `" ++ name ++ "`"
  | unknownField name known =>
    "unknown field `" ++ name ++ "`, expected " ++ alternatives known
  | unknownVariant name known =>
    "unknown variant `" ++ name ++ "`, expected " ++ alternatives known
  | custom message => message

namespace Shape

/-- The error of a value that is of another kind than expected. -/
def mismatch {α : Type} (d : Datum) (expected : String) : Except ShapeError α :=
  .error (.invalidType d.describe expected)

/-- A text. -/
def text : Datum → Except ShapeError String
  | .text s => .ok s
  | d => mismatch d "a string"

/-- A truth value. -/
def bool : Datum → Except ShapeError Bool
  | .bool b => .ok b
  | d => mismatch d "a boolean"

/-- A whole number that is not negative; `expected` names the range. -/
def nat (expected : String) : Datum → Except ShapeError Nat
  | .integer i =>
    if 0 ≤ i then .ok i.toNat
    else .error (.invalidValue (Datum.integer i).describe expected)
  | d => mismatch d expected

/-- A whole number of 32 bits; `expected` names the range. -/
def word (expected : String) (d : Datum) : Except ShapeError UInt32 := do
  let n ← nat expected d
  if n < UInt32.size then .ok (UInt32.ofNat n)
  else .error (.invalidValue d.describe expected)

/-- A value that may be null. -/
def optional {α : Type} (shape : Datum → Except ShapeError α) :
    Datum → Except ShapeError (Option α)
  | .null => .ok none
  | d => do
    let x ← shape d
    .ok (some x)

/-- The items of a list in order, each of a shape. -/
def items {α : Type} (shape : Datum → Except ShapeError α) :
    List Datum → Except ShapeError (List α)
  | [] => .ok []
  | d :: ds => do
    let x ← shape d
    let xs ← items shape ds
    .ok (x :: xs)

/-- A list whose items have a shape. -/
def listOf {α : Type} (shape : Datum → Except ShapeError α) : Datum → Except ShapeError (List α)
  | .list ds => items shape ds
  | d => mismatch d "a sequence"

/-- The values of a record in order, each of a shape, with their names. -/
def values {α : Type} (shape : Datum → Except ShapeError α) :
    List (String × Datum) → Except ShapeError (List (String × α))
  | [] => .ok []
  | (k, d) :: fields => do
    let x ← shape d
    let xs ← values shape fields
    .ok ((k, x) :: xs)

/-- A record with any names whose values have a shape. -/
def mapOf {α : Type} (shape : Datum → Except ShapeError α) :
    Datum → Except ShapeError (List (String × α))
  | .record fields => values shape fields
  | d => mismatch d "a map"

end Shape

/-- A record whose fields are collected in `σ` and then make an `α`. -/
structure RecordShape (σ α : Type) where
  /-- What the record is called in messages. -/
  name : String
  /-- The fields in the order in which a list gives them. -/
  fields : List String
  /-- Whether a field of another name is an error. -/
  strict : Bool
  /-- Before any field has been read. -/
  start : σ
  /-- Reads the field of a given name. -/
  set : String → Datum → σ → Except ShapeError σ
  /-- The record made from its fields, or the first one that is missing. -/
  finish : σ → Except String α

namespace RecordShape

variable {σ α : Type}

/-- Reads fields in document order. -/
def readFields (r : RecordShape σ α) : List (String × Datum) → σ → Except ShapeError σ
  | [], s => .ok s
  | (k, d) :: rest, s =>
    if r.fields.contains k then do
      let s ← r.set k d s
      r.readFields rest s
    else if r.strict then .error (.unknownField k r.fields)
    else r.readFields rest s

/-- Reads items as the fields of the same places; those beyond the last field are left. -/
def readItems (r : RecordShape σ α) : List String → List Datum → σ → Except ShapeError σ
  | name :: names, d :: ds, s => do
    let s ← r.set name d s
    r.readItems names ds s
  | _, _, s => .ok s

/-- How a list that stands for the record is called when it is too short. -/
def expectedLength (r : RecordShape σ α) : String :=
  r.name ++ " with " ++ toString r.fields.length
    ++ (if r.fields.length = 1 then " element" else " elements")

/-- A record, written with names. -/
def readRecord (r : RecordShape σ α) (fields : List (String × Datum)) : Except ShapeError α := do
  let s ← r.readFields fields r.start
  match r.finish s with
  | .ok x => .ok x
  | .error name => .error (.missingField name)

/-- A record, written as the list of its fields. -/
def readList (r : RecordShape σ α) (ds : List Datum) : Except ShapeError α := do
  let s ← r.readItems r.fields ds r.start
  match r.finish s with
  | .ok x => .ok x
  | .error name => .error (.invalidLength (r.fields.idxOf name) r.expectedLength)

/-- A record in either form; `surplus` is the error of a list with items left over, if any. -/
def read (r : RecordShape σ α) (surplus : Option String) : Datum → Except ShapeError α
  | .record fields => r.readRecord fields
  | .list ds => do
    let x ← r.readList ds
    match surplus with
    | some expected =>
      if r.fields.length < ds.length then .error (.invalidLength ds.length expected) else .ok x
    | none => .ok x
  | d => Shape.mismatch d r.name

end RecordShape

end DeclSurface
