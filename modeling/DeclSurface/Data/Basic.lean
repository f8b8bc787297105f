import DeclSurface.Number.Decimal

/-!
# Data

The value of a text in a data format, before it is known what it should be: scalars, lists,
and records whose fields stand in the order in which the text gives them.

* `Datum`         — the tree.
* `Datum.isDate`  — the records that stand for dates and times of day.
-/

namespace DeclSurface

/-- A value of a data format. -/
inductive Datum where
  | null
  | bool (b : Bool)
  | integer (i : Int)
  | real (x : RealNumber)
  | text (s : String)
  | list (items : List Datum)
  /-- Fields with distinct names, in document order. -/
  | record (fields : List (String × Datum))
deriving Repr, Inhabited

namespace Datum

/-- A natural number. -/
def nat (n : Nat) : Datum :=
  integer n

/-- A list of texts. -/
def texts (ss : List String) : Datum :=
  list (ss.map text)

/-- The field of a record that stands for a date or a time of day. -/
def dateField : String := "$__toml_private_datetime"

/-- Whether a value is a date or a time of day. -/
def isDate : Datum → Bool
  | record [(name, text _)] => name = dateField
  | _ => false

end Datum

end DeclSurface
