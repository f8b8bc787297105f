import DeclSurface.Failure
import DeclSurface.Files.Tree
import DeclSurface.Toml.Document

/-!
# Settings

Defaults for composition, kept in files: those of the user, and those of a project, which come
on top.

* `SettingsEntry`      — what one file sets.
* `Settings`           — settings in effect; `Settings.merge` puts some on top of others.
* `Settings.load`      — the settings of a file.
* `Settings.ofFiles`   — the settings of the user and of a project together.
-/

namespace DeclSurface

/-! ## Files -/

/-- What a file sets; it need not set anything. -/
structure SettingsEntry where
  format : Option String := none
  configuration : Option String := none
  flags : Option (List String) := none
  fingerprint : Option Bool := none
deriving DecidableEq, Repr, Inhabited

/-- The fields about composition. -/
def SettingsEntry.compositionShape (start : SettingsEntry) :
    RecordShape SettingsEntry SettingsEntry where
  name := "struct ComposeConfig"
  fields := ["format", "configuration", "flags"]
  strict := false
  start := start
  set name d s :=
    if name = "format" then do
      let x ← Shape.text d
      .ok { s with format := some x }
    else if name = "configuration" then do
      let x ← Shape.text d
      .ok { s with configuration := some x }
    else do
      let x ← Shape.listOf Shape.text d
      .ok { s with flags := some x }
  finish s := .ok s

/-- The fields about output. -/
def SettingsEntry.outputShape (start : SettingsEntry) :
    RecordShape SettingsEntry SettingsEntry where
  name := "struct EmitConfig"
  fields := ["fingerprint"]
  strict := false
  start := start
  set _ d s := do
    let x ← Shape.bool d
    .ok { s with fingerprint := some x }
  finish s := .ok s

/-- The tables of a settings file. -/
def SettingsEntry.shape : RecordShape SettingsEntry SettingsEntry where
  name := "struct Config"
  fields := ["compose", "emit"]
  strict := false
  start := {}
  set name d s :=
    if name = "compose" then (SettingsEntry.compositionShape s).read none d
    else (SettingsEntry.outputShape s).read none d
  finish s := .ok s

/-- Reads what a file sets. -/
def SettingsEntry.ofDatum (d : Datum) : Except ShapeError SettingsEntry :=
  SettingsEntry.shape.read none d

/-! ## Settings in effect -/

/-- Defaults for composition. -/
structure Settings where
  /-- The name of an output format. -/
  format : Option String := none
  /-- The name of a configuration. -/
  configuration : Option String := none
  /-- Flags that are always enabled. -/
  flags : List String := []
  /-- Whether headers show the fingerprint of their manifest. -/
  fingerprint : Bool := true
deriving DecidableEq, Repr, Inhabited

/-- The settings of a file; what it leaves open is as without any file. -/
def SettingsEntry.toSettings (e : SettingsEntry) : Settings :=
  { format := e.format
    configuration := e.configuration
    flags := e.flags.getD []
    fingerprint := e.fingerprint.getD true }

namespace Settings

/-- A flag after others, unless it is among them. -/
def addFlag (flags : List String) (flag : String) : List String :=
  if flags.contains flag then flags else flags ++ [flag]

/-- Settings on top of others: flags add up, and fingerprints can only be turned off. -/
def merge (s t : Settings) : Settings :=
  { format := t.format <|> s.format
    configuration := t.configuration <|> s.configuration
    flags := t.flags.foldl addFlag s.flags
    fingerprint := s.fingerprint && t.fingerprint }

/-- The settings of a text, if it is TOML and holds settings. -/
def parse (text : String) : Except Cause Settings :=
  match Toml.parse? text with
  | none => .error .settingsText
  | some d =>
    match SettingsEntry.ofDatum d with
    | .ok e => .ok e.toSettings
    | .error e => .error (.settingsShape e)

/-- The settings of a file. -/
def load (d : Disk) (file : Path) : Result Settings :=
  match d.read? file with
  | none => .error { contexts := [.readingSettings file], cause := .access }
  | some text =>
    match parse text with
    | .ok s => .ok s
    | .error cause => .error { contexts := [.parsingSettings file], cause }

/-- The settings of a file, or those without any file if it cannot be read. -/
def loadOrDefault (d : Disk) (file : Path) : Settings :=
  match load d file with
  | .ok s => s
  | .error _ => {}

/-- The settings of the user's file and of a project's file on top of it. -/
def ofFiles (d : Disk) (user project : Path) : Settings :=
  (merge {} (loadOrDefault d user)).merge (loadOrDefault d project)

/-- The settings file of a project, given the directory of its library. -/
def projectFile (root : Path) : Path :=
  (root.child ".quay").child "config.toml"

end Settings

end DeclSurface
