import DeclSurface.Command.Invocation
import DeclSurface.Workspace

/-!
# What a command may look at

Which files and directories a command may read, so that no more of the disk has to be known.
What it is depends on what is there: only the file of a library says which others belong to
it. So it is found in rounds, each of which adds to the disk what the one before asked for.

* `Reach`             — a place to look at, and how deep.
* `Invocation.reach`  — the places that matter, as far as the disk known so far tells.
-/

namespace DeclSurface

/-- A place to look at, and how many levels below it count. -/
structure Reach where
  path : Path
  depth : Nat := 0
deriving DecidableEq, Repr

namespace Reach

/-- How deep directories of included files are searched. -/
def includeDepth : Nat := 32

/-- The number of rounds after which no new places turn up. -/
def rounds : Nat := 3

/-- The place where the files of a pattern lie: as far down as it has no wildcards. -/
def ofPattern (root : Path) (pattern : String) : Reach :=
  let isLiteral (piece : String) : Bool := !piece.toList.any fun c => "*?[".toList.contains c
  let pieces := (root.child pattern).pieces
  { path := ⟨"/".intercalate (pieces.takeWhile isLiteral)⟩, depth := includeDepth }

/-- The places of the files that a library file includes. -/
def ofIncludes (d : Disk) (file : Path) : List Reach :=
  match d.read? file with
  | none => []
  | some text =>
    match LibraryEntry.parse libraryFileName text with
    | .ok { metadata := some m, .. } => m.include_.map (ofPattern (file.parent?.getD ⟨"."⟩))
    | _ => []

/-- The places where surfaces are written. -/
def ofDestination (w : Workspace) : Command → List Reach
  | .compose _ _ (.file p) _ => [{ path := w.resolve p }]
  | .compose _ _ (.allInto dir) _ => [{ path := w.resolve dir, depth := 1 }]
  | _ => []

end Reach

/-- The places where the library that is meant may lie. -/
def Workspace.candidates (w : Workspace) : Option Path → List Reach
  | some p => [{ path := w.resolve p, depth := 1 }]
  | none => w.cwd.ancestors.map fun p => { path := p.child libraryFileName }

/-- The places that matter to an invocation, as far as the disk known so far tells. -/
def Invocation.reach (i : Invocation) (w : Workspace) (d : Disk) : List Reach :=
  w.candidates i.library ++ { path := w.userFile } :: Reach.ofDestination w i.command
    ++ match w.findLibrary d i.library with
      | .ok file =>
        { path := Settings.projectFile (file.parent?.getD w.cwd) } :: Reach.ofIncludes d file
      | .error _ => []

end DeclSurface
