import DeclSurface.Declaration
import DeclSurface.Rewrite.Event

/-!
# Manifests

A manifest is the result of a composition: which fragments are in, their items in order, and
the log of rewrites with the place of each event among the items. It is all that an output
format is given.

* `Manifest`           — the record.
* `Manifest.eventsAt`  — the events just before an item.
-/

namespace DeclSurface

/-- An item with the fragment that contributed it. -/
structure ManifestItem where
  fragment : String
  item : Item
deriving DecidableEq, Repr, Inhabited

/-- The result of a composition. -/
structure Manifest where
  /-- The version of the manifest format. -/
  version : UInt32
  /-- The configuration it was composed for. -/
  configuration : Option String
  /-- The enabled flags in order. -/
  flags : List String
  /-- The included fragments in the order in which they were placed. -/
  fragments : List String
  items : List ManifestItem
  /-- The rewrite log, oldest event first. -/
  rewrites : List RewriteEvent
deriving DecidableEq, Repr, Inhabited

namespace Manifest

/-- The version of the manifests that composition makes. -/
def currentVersion : UInt32 := 1

/-- The items without their fragments. -/
def declarations (m : Manifest) : List Item :=
  m.items.map (·.item)

/-- The items that a fragment contributed. -/
def itemsOf (m : Manifest) (fragment : String) : List Item :=
  (m.items.filter (·.fragment == fragment)).map (·.item)

/-- The place of a fragment among the included ones. -/
def positionOf (m : Manifest) (fragment : String) : Option Nat :=
  m.fragments.findIdx? (· == fragment)

/-- Whether a fragment is included. -/
def contains (m : Manifest) (fragment : String) : Bool :=
  (m.positionOf fragment).isSome

/-- The events that stand just before the item at a position. -/
def eventsAt (m : Manifest) (position : Nat) : List RewriteEvent :=
  m.rewrites.filter (·.position == position)

end Manifest

end DeclSurface
