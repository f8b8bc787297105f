import DeclSurface.Composition.Basic
import DeclSurface.Library.Basic
import DeclSurface.Manifest.Format

/-!
# Surfaces

A surface is what a library declares under some flags, and for a configuration if one is
chosen, together with its text in an output format.

* `Library.plan`     — how a library is composed.
* `Library.surface`  — the surface for a configuration, or why it cannot be composed.
* `Library.compose`  — the surface for a configuration by name.
-/

namespace DeclSurface

/-- What a surface is composed and written with. -/
structure SurfaceOptions where
  /-- The flags on top of those of the configuration. -/
  flags : FlagSet := .empty
  format : OutputFormat := .header
  /-- Whether a header shows the fingerprint of its manifest. -/
  fingerprint : Bool := true
deriving DecidableEq, Inhabited

/-- A composed surface with its text. -/
structure Surface where
  /-- The configuration it was composed for. -/
  configuration : Option String
  manifest : Manifest
  text : String
deriving DecidableEq, Repr, Inhabited

namespace Library

/-- How a library is composed for a configuration, if one is chosen. -/
def plan (l : Library) (configuration : Option Configuration) : Plan :=
  { rules := l.rewrites, configuration }

/-- The manifest of a library; `stop` says before which fragments a run is asked to give up. -/
def manifestUntil (l : Library) (configuration : Option Configuration) (flags : FlagSet)
    (stop : Nat → Bool) : Except ComposeError Manifest := do
  let store ← l.store
  (l.plan configuration).composeUntil store flags stop

/-- The manifest of a library. -/
def manifest (l : Library) (configuration : Option Configuration) (flags : FlagSet) :
    Except ComposeError Manifest :=
  l.manifestUntil configuration flags fun _ => false

theorem manifest_eq_bind (l : Library) (configuration : Option Configuration) (flags : FlagSet) :
    l.manifest configuration flags
      = l.store >>= fun store => (l.plan configuration).compose store flags :=
  rfl

/-- The surface of a library; `stop` says before which fragments a run is asked to give up. -/
def surfaceUntil (l : Library) (configuration : Option Configuration) (o : SurfaceOptions)
    (stop : Nat → Bool) : Except ComposeError Surface := do
  let m ← l.manifestUntil configuration o.flags stop
  .ok { configuration := configuration.map (·.name)
        manifest := m
        text := m.emit o.format o.fingerprint }

/-- The surface of a library. -/
def surface (l : Library) (configuration : Option Configuration) (o : SurfaceOptions) :
    Except ComposeError Surface :=
  l.surfaceUntil configuration o fun _ => false

/-- A composition as a result, which says what was composed if it fails. -/
def reported {α : Type} (l : Library) (configuration : Option Configuration)
    (r : Except ComposeError α) : Result α :=
  match r with
  | .ok x => .ok x
  | .error e =>
    .error { contexts := [.composing l.name (configuration.map (·.name))], cause := .compose e }

/-- The surface for a configuration by name, or for none. -/
def compose (l : Library) (configuration : Option String) (o : SurfaceOptions) :
    Result Surface := do
  let c ← l.chosen configuration
  l.reported c (l.surface c o)

end Library

end DeclSurface
