import DeclSurface.Files.Path

/-!
# File trees

Files and directories as a value, seen from a working directory. Reading and writing through
a path resolves it component by component, as an operating system does.

* `FileTree`         — files with their contents, and directories.
* `Disk`             — a file tree with a working directory.
* `Disk.read?`, `Disk.write?`, `Disk.makeDirs` — access by path.
-/

namespace DeclSurface

/-- The names that lead from the root to a file or directory. -/
abbrev Location : Type := List String

/-- Files and directories. A directory that holds anything need not be listed. -/
structure FileTree where
  /-- Each file with its contents. -/
  files : List (Location × String) := []
  dirs : List Location := []
deriving DecidableEq, Repr, Inhabited

namespace FileTree

/-- The contents of a file. -/
def contents? (t : FileTree) (at_ : Location) : Option String :=
  t.files.lookup at_

/-- Whether there is a file. -/
def isFile (t : FileTree) (at_ : Location) : Bool :=
  (t.contents? at_).isSome

/-- Whether there is a directory: the root, one that is listed, or one that holds something. -/
def isDir (t : FileTree) (at_ : Location) : Bool :=
  at_.isEmpty || t.dirs.any (fun d => at_.isPrefixOf d)
    || t.files.any fun (f, _) => at_.isPrefixOf f && f != at_

/-- The names of what a directory holds, each once and in order. -/
def entries (t : FileTree) (at_ : Location) : List String :=
  let below := (t.files.map (·.1) ++ t.dirs).filterMap fun l =>
    if at_.isPrefixOf l then (l.drop at_.length).head? else none
  (below.mergeSort fun a b => a ≤ b).eraseDups

/-- The tree with a file, in place of any that was there. -/
def put (t : FileTree) (at_ : Location) (contents : String) : FileTree :=
  if t.isFile at_ then
    { t with files := t.files.map fun (l, c) => if l = at_ then (l, contents) else (l, c) }
  else { t with files := t.files ++ [(at_, contents)] }

/-- The tree with a directory. -/
def putDir (t : FileTree) (at_ : Location) : FileTree :=
  if t.isDir at_ then t else { t with dirs := t.dirs ++ [at_] }

/-- Follows components from a location; each step leads on from a directory. -/
def follow (t : FileTree) : Location → List Path.Component → Option Location
  | l, [] => some l
  | _, .root :: cs => t.follow [] cs
  | l, .current :: cs => if t.isDir l then t.follow l cs else none
  | l, .parent :: cs => if t.isDir l then t.follow l.dropLast cs else none
  | l, .name s :: cs => if t.isDir l then t.follow (l ++ [s]) cs else none

end FileTree

/-- A file tree, seen from a working directory. -/
structure Disk where
  tree : FileTree := {}
  cwd : Location := []
deriving DecidableEq, Repr, Inhabited

namespace Disk

/-- Whether the text of a path says that it leads to a directory. -/
def wantsDir (p : Path) : Bool :=
  match p.pieces.getLast? with
  | some piece => Path.isIdle piece
  | none => true

/-- The location that a path leads to; what lies there may still be missing. -/
def locate (d : Disk) (p : Path) : Option Location :=
  if p.text = "" then none else d.tree.follow d.cwd p.components

/-- Whether a path leads to a file. -/
def isFile (d : Disk) (p : Path) : Bool :=
  match d.locate p with
  | some l => !wantsDir p && d.tree.isFile l
  | none => false

/-- Whether a path leads to a directory. -/
def isDir (d : Disk) (p : Path) : Bool :=
  match d.locate p with
  | some l => d.tree.isDir l
  | none => false

/-- Whether a path leads to anything. -/
def exists? (d : Disk) (p : Path) : Bool :=
  d.isFile p || d.isDir p

/-- The contents of the file that a path leads to. -/
def read? (d : Disk) (p : Path) : Option String :=
  match d.locate p with
  | some l => if wantsDir p then none else d.tree.contents? l
  | none => none

/-- The names of what the directory that a path leads to holds. -/
def entries (d : Disk) (p : Path) : List String :=
  match d.locate p with
  | some l => d.tree.entries l
  | none => []

/-- The disk with a file written, where its directory is there and no directory is in its way. -/
def write? (d : Disk) (p : Path) (contents : String) : Option Disk :=
  match d.locate p with
  | some l =>
    if wantsDir p || d.tree.isDir l then none
    else some { d with tree := d.tree.put l contents }
  | none => none

/-- Makes the directories that components lead through; stops where a file is in the way. -/
def makeAlong (t : FileTree) : Location → List Path.Component → Bool × FileTree
  | _, [] => (true, t)
  | _, .root :: cs => makeAlong t [] cs
  | l, .current :: cs => makeAlong t l cs
  | l, .parent :: cs => makeAlong t l.dropLast cs
  | l, .name s :: cs =>
    let l := l ++ [s]
    if t.isFile l then (false, t) else makeAlong (t.putDir l) l cs

/-- Makes a directory and those it lies in; says whether nothing was in the way. -/
def makeDirs (d : Disk) (p : Path) : Bool × Disk :=
  let (done, tree) := makeAlong d.tree d.cwd p.components
  (done, { d with tree })

end Disk

end DeclSurface
