import DeclSurface.Data.Shape
import DeclSurface.FlagSet
import DeclSurface.Gate.Reader

/-!
# Gates and flag sets as data

* `Gate.toDatum`, `Gate.ofDatum`        — a gate is its written form.
* `FlagSet.toDatum`, `FlagSet.ofDatum`  — a flag set lists its flags, and values if it has any.
-/

namespace DeclSurface

/-- A gate as data. -/
def Gate.toDatum (g : Gate) : Datum :=
  .text g.text

/-- Reads a gate. -/
def Gate.ofDatum (d : Datum) : Except ShapeError Gate := do
  let s ← Shape.text d
  match Gate.parse s with
  | .ok g => .ok g
  | .error e => .error (.custom e.message)

namespace FlagSet

/-- A flag set as data. -/
def toDatum (s : FlagSet) : Datum :=
  .record (("enabled", .texts s.names)
    :: (if s.values.isEmpty then []
        else [("values", .record (s.values.entries.map fun (k, v) => (k, .text v)))]))

/-- The fields of a flag set. -/
def shape : RecordShape (Option (List String) × List (String × String)) FlagSet where
  name := "struct FlagSet"
  fields := ["enabled", "values"]
  strict := false
  start := (none, [])
  set name d s :=
    if name = "enabled" then do
      let names ← Shape.listOf Shape.text d
      .ok (some names, s.2)
    else do
      let values ← Shape.mapOf Shape.text d
      .ok (s.1, values)
  finish s := match s.1 with
    | some names => .ok { enabled := NameSet.ofNames names, values := NameMap.ofList s.2 }
    | none => .error "enabled"

/-- Reads a flag set. -/
def ofDatum (d : Datum) : Except ShapeError FlagSet :=
  shape.read (some "fewer elements in array") d

end FlagSet

end DeclSurface
