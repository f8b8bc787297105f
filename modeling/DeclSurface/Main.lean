import DeclSurface.Command.Reach
import DeclSurface.Command.Run

/-!
# The program

Looks at the files that the command line is about, runs it on them, writes what is new and
says how it ended. All decisions are made elsewhere.
-/

namespace DeclSurface

/-- A location as an absolute path. -/
def Location.absolute (l : Location) : String :=
  "/" ++ "/".intercalate l

/-- The text of a file, if there is one that can be read as text. -/
def readText? (l : Location) : IO (Option String) := do
  try
    let s ← IO.FS.readFile l.absolute
    return some s
  catch _ => return none

/-- The names of what a directory holds, if there is one. -/
def namesIn? (l : Location) : IO (Option (List String)) := do
  try
    let dir ← IO.FS.realPath l.absolute
    let entries ← dir.readDir
    return some (entries.toList.map fun e => e.fileName)
  catch _ => return none

/-- Adds what lies at a location, and what lies below it for some levels. -/
def look : (depth : Nat) → FileTree → Location → IO FileTree
  | depth, t, l => do
    match ← namesIn? l with
    | some names =>
      match depth with
      | 0 => return t.putDir l
      | depth + 1 => names.foldlM (fun t name => look depth t (l ++ [name])) (t.putDir l)
    | none =>
      match ← readText? l with
      | some s => return t.put l s
      | none => return t

/-- Adds a place with the directories that the way to it leads through. -/
def lookAlong (d : Disk) (r : Reach) : IO Disk := do
  let mut d := d
  for p in r.path.ancestors.reverse do
    let depth := if p = r.path then r.depth else 0
    match d.locate p with
    | some l => d := { d with tree := ← look depth d.tree l }
    | none => pure ()
  return d

/-- The disk as far as an invocation looks at it. -/
def lookFor (i : Invocation) (w : Workspace) (cwd : Location) : IO Disk := do
  let mut d : Disk := { tree := { dirs := [cwd] }, cwd }
  for _ in List.range Reach.rounds do
    for r in i.reach w d do
      d ← lookAlong d r
  return d

/-- Writes what is new or has changed. -/
def writeChanges (before after : FileTree) : IO Unit := do
  for l in after.dirs do
    unless before.dirs.contains l do
      IO.FS.createDirAll l.absolute
  for (l, s) in after.files do
    unless before.files.contains (l, s) do
      IO.FS.writeFile l.absolute s

/-- How the program is used. -/
def usage : String :=
  "usage: quay [-v] [--no-color] [--library FILE] COMMAND\n"
    ++ "  compose [-D FLAG]... [--cflags FLAGS] [-c NAME] [-f FORMAT] [-o FILE]\n"
    ++ "          [--no-fingerprint]\n"
    ++ "  compose --all -o DIRECTORY [-D FLAG]... [--cflags FLAGS] [-f FORMAT]\n"
    ++ "          [--no-fingerprint]\n"
    ++ "  check [--deny-warnings]\n"
    ++ "  explain FRAGMENT [-D FLAG]... [--cflags FLAGS] [-c NAME]\n"
    ++ "  flags [-D FLAG]... [--cflags FLAGS] [-c NAME] [--eval GATE]\n"
    ++ "  list [--rewrites | --configurations]\n"

/-- Runs a command line in the working directory; gives the exit code. -/
def runProgram (args : List String) : IO UInt32 := do
  let cwd : Path := ⟨(← IO.currentDir).toString⟩
  let home : Path := (Path.mk ((← IO.getEnv "HOME").getD ".")).child ".quay"
  let env : Environment :=
    { library := ← IO.getEnv "QUAY_LIBRARY", compilerFlags := ← IO.getEnv "QUAY_CFLAGS" }
  match Invocation.parse? env args with
  | none =>
    IO.eprint usage
    return 2
  | some i =>
    let here : Location := cwd.pieces.filter (· ≠ "")
    let d ← lookFor i { cwd, home, color := i.color } here
    let (ending, after) := runCommandLine env args cwd home d
    writeChanges d.tree after.tree
    IO.print ending.shown
    IO.eprint ending.complaint
    return ending.code.toUInt32

end DeclSurface

/-- The program. -/
def main (args : List String) : IO UInt32 :=
  DeclSurface.runProgram args
