import DeclSurface.Library.Source
import DeclSurface.Settings

/-!
# Workspaces

Where a command is given: a working directory, below which or above which lies the library
that it is about, and the user's own settings.

* `Workspace.findLibrary`  — the file of the library.
* `Workspace.settings`     — the settings that apply to a library.
* `Project`                — a library with its settings; `Workspace.project` loads one.
-/

namespace DeclSurface

/-- A path and those it lies in, innermost first; `steps` bounds their number. -/
def Path.upward : (steps : Nat) → Path → List Path
  | 0, p => [p]
  | steps + 1, p =>
    match p.parent? with
    | none => [p]
    | some q => p :: upward steps q

/-- A path and those it lies in, innermost first. Each lies one piece higher. -/
def Path.ancestors (p : Path) : List Path :=
  p.upward p.pieces.length

/-- Where a command is given. -/
structure Workspace where
  /-- The working directory. -/
  cwd : Path
  /-- The directory of the user's settings. -/
  home : Path
  /-- Whether messages are coloured. -/
  color : Bool := true
deriving DecidableEq, Repr, Inhabited

/-- A library with the settings that apply to it. -/
structure Project where
  library : Library
  settings : Settings
deriving Inhabited

namespace Workspace

/-- The user's settings file. -/
def userFile (w : Workspace) : Path :=
  w.home.child "config.toml"

/-- A path, seen from the working directory. -/
def resolve (w : Workspace) (p : Path) : Path :=
  w.cwd.join p

/-- The library file at a path, or in a directory. -/
def libraryAt (w : Workspace) (d : Disk) (p : Path) : Result Path :=
  let p := w.resolve p
  let file := if d.isDir p then p.child libraryFileName else p
  if d.isFile file then .ok file else Result.fail (.noLibraryFile file)

/-- The library file in the working directory or the nearest one above it. -/
def nearestLibrary (w : Workspace) (d : Disk) : Result Path :=
  match (w.cwd.ancestors.map fun p => p.child libraryFileName).find? d.isFile with
  | some file => .ok file
  | none => Result.fail (.noLibraryAbove w.cwd)

/-- The file of the library that is meant: the one given, or the nearest one. -/
def findLibrary (w : Workspace) (d : Disk) (given : Option Path) : Result Path :=
  match given with
  | some p => w.libraryAt d p
  | none => w.nearestLibrary d

/-- The settings that apply to the library of a file; those of its project lie next to it. -/
def settings (w : Workspace) (d : Disk) (library : Path) : Settings :=
  Settings.ofFiles d w.userFile (Settings.projectFile (library.parent?.getD w.cwd))

/-- The library that is meant, with the settings that apply to it. -/
def project (w : Workspace) (d : Disk) (given : Option Path) : Result Project := do
  let file ← w.findLibrary d given
  let library ← Library.load d file
  .ok { library, settings := w.settings d file }

end Workspace

end DeclSurface
