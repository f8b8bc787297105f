import DeclSurface.Data.Json
import DeclSurface.Manifest.Basic
import DeclSurface.Record.Item

/-!
# Manifests as data

* `Manifest.toDatum`, `Manifest.ofDatum`  — write and read a manifest.
* `Manifest.toJson`                       — the text of a manifest in JSON.
-/

namespace DeclSurface

/-! ## Writing -/

/-- An item with its fragment as data. -/
def ManifestItem.toDatum (i : ManifestItem) : Datum :=
  .record (("fragment", .text i.fragment) :: i.item.toFields)

/-- An action as data. -/
def EventAction.toDatum : EventAction → Datum
  | apply => .text "apply"
  | restore => .text "restore"

/-- An event as data. -/
def RewriteEvent.toDatum (e : RewriteEvent) : Datum :=
  .record ([("action", e.action.toDatum), ("symbol", .text e.symbol)]
    ++ optionalField "value" e.value
    ++ [("fragment", .text e.fragment), ("position", .nat e.position)])

namespace Manifest

/-- A manifest as data. -/
def toDatum (m : Manifest) : Datum :=
  .record ([("version", .nat m.version.toNat)]
    ++ optionalField "configuration" m.configuration
    ++ [("flags", .texts m.flags), ("fragments", .texts m.fragments),
        ("items", .list (m.items.map ManifestItem.toDatum)),
        ("rewrites", .list (m.rewrites.map RewriteEvent.toDatum))])

/-- A manifest in JSON, closed by a line feed. -/
def toJson (m : Manifest) : String :=
  Json.pretty m.toDatum ++ "\n"

end Manifest

/-! ## Reading -/

/-- Reads an item with its fragment; a missing fragment is reported before a defect of the item. -/
def ManifestItem.ofDatum : Datum → Except ShapeError ManifestItem
  | .record fields =>
    match fields.lookup "fragment" with
    | none => .error (.missingField "fragment")
    | some d => do
      let fragment ← Shape.text d
      let item ← Item.ofFields (fields.filter (·.1 != "fragment"))
      .ok { fragment, item }
  | d => Shape.mismatch d "struct ManifestItem"

/-- Reads an action. -/
def EventAction.ofDatum (d : Datum) : Except ShapeError EventAction := do
  let name ← readPlainVariant ["apply", "restore"] d
  .ok (if name = "apply" then .apply else .restore)

/-- The fields of an event that have been read. -/
structure EventDraft where
  action : Option EventAction := none
  symbol : Option String := none
  value : Option String := none
  fragment : Option String := none
  position : Option Nat := none

/-- The fields of an event. -/
def RewriteEvent.shape : RecordShape EventDraft RewriteEvent where
  name := "struct RewriteEvent"
  fields := ["action", "symbol", "value", "fragment", "position"]
  strict := false
  start := {}
  set name d s :=
    if name = "action" then do
      let action ← EventAction.ofDatum d
      .ok { s with action := some action }
    else if name = "symbol" then do
      let symbol ← Shape.text d
      .ok { s with symbol := some symbol }
    else if name = "value" then do
      let value ← Shape.optional Shape.text d
      .ok { s with value }
    else if name = "fragment" then do
      let fragment ← Shape.text d
      .ok { s with fragment := some fragment }
    else do
      let position ← Shape.nat "usize" d
      .ok { s with position := some position }
  finish s := do
    let some action := s.action | .error "action"
    let some symbol := s.symbol | .error "symbol"
    let some fragment := s.fragment | .error "fragment"
    let some position := s.position | .error "position"
    .ok { action, symbol, value := s.value, fragment, position }

/-- Reads an event. -/
def RewriteEvent.ofDatum (d : Datum) : Except ShapeError RewriteEvent :=
  RewriteEvent.shape.read (some "fewer elements in array") d

/-- The fields of a manifest that have been read. -/
structure ManifestDraft where
  version : Option UInt32 := none
  configuration : Option String := none
  flags : Option (List String) := none
  fragments : Option (List String) := none
  items : Option (List ManifestItem) := none
  rewrites : Option (List RewriteEvent) := none

namespace Manifest

/-- The fields of a manifest. -/
def shape : RecordShape ManifestDraft Manifest where
  name := "struct Manifest"
  fields := ["version", "configuration", "flags", "fragments", "items", "rewrites"]
  strict := false
  start := {}
  set name d s :=
    if name = "version" then do
      let version ← Shape.word "u32" d
      .ok { s with version := some version }
    else if name = "configuration" then do
      let configuration ← Shape.optional Shape.text d
      .ok { s with configuration }
    else if name = "flags" then do
      let flags ← Shape.listOf Shape.text d
      .ok { s with flags := some flags }
    else if name = "fragments" then do
      let fragments ← Shape.listOf Shape.text d
      .ok { s with fragments := some fragments }
    else if name = "items" then do
      let items ← Shape.listOf ManifestItem.ofDatum d
      .ok { s with items := some items }
    else do
      let rewrites ← Shape.listOf RewriteEvent.ofDatum d
      .ok { s with rewrites := some rewrites }
  finish s := do
    let some version := s.version | .error "version"
    let some flags := s.flags | .error "flags"
    let some fragments := s.fragments | .error "fragments"
    let some items := s.items | .error "items"
    let some rewrites := s.rewrites | .error "rewrites"
    .ok { version, configuration := s.configuration, flags, fragments, items, rewrites }

/-- Reads a manifest. -/
def ofDatum (d : Datum) : Except ShapeError Manifest :=
  shape.read (some "fewer elements in array") d

end Manifest

end DeclSurface
