import DeclSurface.Failure
import DeclSurface.Files.Tree

/-!
# Writing files

Work on a disk that may fail. What was written before a failure stays written.

* `Work`                  — such work.
* `Work.ensureDir`        — makes a directory unless there is one.
* `Work.write`            — writes a file and makes the directories it needs.
* `Work.writeIfChanged`   — writes a file unless it holds the same text already.
-/

namespace DeclSurface

/-- Work on a disk that may fail. -/
abbrev Work (α : Type) : Type := ExceptT Failure (StateM Disk) α

namespace Work

/-- The disk after some work, and what came of it. -/
def runOn {α : Type} (w : Work α) (d : Disk) : Result α × Disk :=
  (ExceptT.run w).run d

/-- Work that does nothing and gives a result. -/
def ofResult {α : Type} (r : Result α) : Work α :=
  ExceptT.mk (pure r)

/-- Work that gives a result that depends on the disk. -/
def read {α : Type} (f : Disk → Result α) : Work α :=
  ExceptT.mk do
    let d ← get
    pure (f d)

/-- The failure of work on files. -/
def refused (context : Context) : Failure :=
  { contexts := [context], cause := .access }

/-- Makes a directory, with those it lies in, unless there is anything at its path. -/
def ensureDir (p : Path) : Work Unit :=
  ExceptT.mk do
    let d ← get
    if d.exists? p then pure (.ok ())
    else
      let (done, d) := d.makeDirs p
      set d
      pure (if done then .ok () else .error (refused (.creatingDirectory p)))

/-- Writes a file in a directory that is there. -/
def put (p : Path) (contents : String) : Work Unit :=
  ExceptT.mk do
    let d ← get
    match d.write? p contents with
    | some d =>
      set d
      pure (.ok ())
    | none => pure (.error (refused (.writingFile p)))

/-- Writes a file, and makes the directory it lies in. -/
def write (p : Path) (contents : String) : Work Unit :=
  match p.parent? with
  | none => put p contents
  | some dir =>
    if dir.text = "" then put p contents
    else do
      ensureDir dir
      put p contents

/-- Writes a file unless it holds the same text already; says whether it was written. -/
def writeIfChanged (p : Path) (contents : String) : Work Bool := do
  let same ← read fun d => .ok (d.read? p == some contents)
  if same then pure false
  else do
    write p contents
    pure true

end Work

end DeclSurface
