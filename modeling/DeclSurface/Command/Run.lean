import DeclSurface.Check.Report
import DeclSurface.Command.Invocation
import DeclSurface.CompilerFlags
import DeclSurface.Explanation.Text
import DeclSurface.Failure.Report
import DeclSurface.Files.Writing
import DeclSurface.Library.Listing
import DeclSurface.Surface.Batch
import DeclSurface.Workspace

/-!
# Running commands

What a command shows and what it writes.

* `FlagRequest.resolve`  — the flags that a command works with.
* `Command.run`          — runs a command for a project.
* `runCommandLine`       — runs a command line.
-/

namespace DeclSurface

/-! ## Flags -/

namespace FlagRequest

/-- The set with a flag that is written with or without a value. -/
def addFlag (s : FlagSet) (text : String) : Result FlagSet :=
  let name := text.toList.takeWhile (· != '=')
  match text.toList.dropWhile (· != '=') with
  | [] => if name.isEmpty then Result.fail .emptyFlagName else .ok (s.enable text)
  | _ :: value =>
    if name.isEmpty then Result.fail (.namelessFlag text)
    else .ok (s.enableWithValue (String.ofList name) (String.ofList value))

/-- The flags of the settings, then those of the compiler flags, then those given one by one. -/
def resolve (r : FlagRequest) (settings : Settings) : Result FlagSet :=
  let base := FlagSet.ofNames settings.flags
  let extended := match r.compilerFlags with
    | some text => base.extend text
    | none => base
  r.flags.foldlM addFlag extended

/-- The configuration that is asked for, or else the one of the settings. -/
def configurationName (r : FlagRequest) (settings : Settings) : Option String :=
  r.configuration <|> settings.configuration

end FlagRequest

/-! ## Commands -/

/-- What a command shows, and what it objects to once it has shown it. -/
structure Output where
  text : String := ""
  objection : Option Cause := none
deriving DecidableEq, Inhabited

/-- The output format that is asked for, or else the one of the settings. -/
def chosenFormat (given : Option String) (settings : Settings) : Result OutputFormat :=
  match given <|> settings.format with
  | none => .ok .header
  | some name =>
    match OutputFormat.parse? name with
    | some f => .ok f
    | none => Result.fail (.format name)

/-- The file for a surface in a directory: named for its configuration, or for the library. -/
def surfaceFile (dir : Path) (l : Library) (s : Surface) (format : OutputFormat) : Path :=
  dir.child (s.configuration.getD l.name ++ "." ++ format.extension)

/-- Writes surfaces to files of a directory. -/
def writeSurfaces (dir : Path) (l : Library) (format : OutputFormat) :
    List Surface → Work Unit
  | [] => pure ()
  | s :: ss => do
    let _ ← Work.writeIfChanged (surfaceFile dir l s format) s.text
    writeSurfaces dir l format ss

/-- Composes a library, and shows or writes what comes of it. -/
def runCompose (w : Workspace) (p : Project) (r : FlagRequest) (format : Option String)
    (destination : Destination) (fingerprint : Bool) : Work Output := do
  let format ← Work.ofResult (chosenFormat format p.settings)
  let flags ← Work.ofResult (r.resolve p.settings)
  let o : SurfaceOptions :=
    { flags, format, fingerprint := p.settings.fingerprint && fingerprint }
  match destination with
  | .allInto dir => do
    let dir := w.resolve dir
    Work.ensureDir dir
    let surfaces ← Work.ofResult (p.library.composeAll none o)
    writeSurfaces dir p.library format surfaces
    pure {}
  | .file file => do
    let s ← Work.ofResult (p.library.compose (r.configurationName p.settings) o)
    let _ ← Work.writeIfChanged (w.resolve file) s.text
    pure {}
  | .shown => do
    let s ← Work.ofResult (p.library.compose (r.configurationName p.settings) o)
    pure { text := s.text }

/-- Checks a library; errors are objected to, and warnings if these are denied. -/
def runCheck (w : Workspace) (p : Project) (denyWarnings : Bool) : Output :=
  let report := p.library.check
  { text := report.format w.color
    objection :=
      if !report.isOk then some (.checkErrors report.library report.errorCount)
      else if denyWarnings && 0 < report.warningCount then
        some (.checkWarnings report.library report.warningCount)
      else none }

/-- Explains a fragment. -/
def runExplain (p : Project) (fragment : String) (r : FlagRequest) : Result Output := do
  let flags ← r.resolve p.settings
  let e ← p.library.explain fragment flags (r.configurationName p.settings)
  .ok { text := e.format }

/-- A line for each flag of a set, or a remark that there are none. -/
def FlagSet.listing (s : FlagSet) : String :=
  if s.isEmpty then "# no flags set\n"
  else String.join (s.names.map fun n =>
    match s.value n with
    | some value => n ++ "=" ++ value ++ "\n"
    | none => n ++ "\n")

/-- Shows the flags in effect, or the value of a gate under them. -/
def runFlags (p : Project) (r : FlagRequest) (gate : Option String) : Result Output := do
  let flags ← r.resolve p.settings
  let c ← p.library.chosen (r.configurationName p.settings)
  let flags := (p.library.plan c).effectiveFlags flags
  match gate with
  | none => .ok { text := flags.listing }
  | some s =>
    match Gate.parse s with
    | .ok g => .ok { text := if g.holds flags then "true\n" else "false\n" }
    | .error e => .error { contexts := [.givenGate s], cause := .gate e }

/-- Lists what is in a library. -/
def runList (p : Project) (subject : ListSubject) : Output :=
  match subject with
  | .fragments => { text := p.library.listFragments }
  | .rewrites => { text := p.library.listRewrites }
  | .configurations => { text := p.library.listConfigurations }

/-- Runs a command for a project. -/
def Command.run (w : Workspace) (p : Project) : Command → Work Output
  | .compose r format destination fingerprint => runCompose w p r format destination fingerprint
  | .check denyWarnings => pure (runCheck w p denyWarnings)
  | .explain fragment r => Work.ofResult (runExplain p fragment r)
  | .flags r gate => Work.ofResult (runFlags p r gate)
  | .list subject => pure (runList p subject)

/-! ## Command lines -/

/-- How a command line ends. -/
inductive Ending where
  /-- It was used wrongly, and nothing was done. -/
  | misused
  /-- What was shown, and why the command failed, if it did. -/
  | ran (shown : String) (color : Bool) (failure : Option Failure)
deriving DecidableEq

namespace Ending

/-- The exit code. -/
def code : Ending → Nat
  | misused => 2
  | ran _ _ none => 0
  | ran _ _ (some _) => 1

/-- What goes to the standard output. -/
def shown : Ending → String
  | misused => ""
  | ran text _ _ => text

/-- What is written about a failure. -/
def complaint : Ending → String
  | misused => ""
  | ran _ color (some f) => f.report color
  | ran _ _ none => ""

/-- The ending of a command that ran. -/
def ofResult (color : Bool) : Result Output → Ending
  | .ok o => ran o.text color (o.objection.map Failure.ofCause)
  | .error f => ran "" color (some f)

end Ending

/-- Runs an invocation in a working directory, given the directory of the user's settings. -/
def Invocation.run (i : Invocation) (cwd home : Path) : Work Output := do
  let w : Workspace := { cwd, home, color := i.color }
  let p ← Work.read fun d => w.project d i.library
  i.command.run w p

/-- Runs a command line in a working directory; gives its ending and the disk afterwards. -/
def runCommandLine (env : Environment) (args : List String) (cwd home : Path) (d : Disk) :
    Ending × Disk :=
  match Invocation.parse? env args with
  | none => (.misused, d)
  | some i =>
    let (r, d) := (i.run cwd home).runOn d
    (.ofResult i.color r, d)

end DeclSurface
