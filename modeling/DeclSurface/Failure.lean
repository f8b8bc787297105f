import DeclSurface.Composition.Error
import DeclSurface.Data.Shape
import DeclSurface.Files.Glob
import DeclSurface.Gate.Error

/-!
# Failures

Why a request fails, and what was being done at the time. A failure is shown as a chain of
texts, from what was asked for down to the cause.

* `Cause`, `Context`  — the last link of the chain, and those before it.
* `Failure`           — a cause in its contexts; `Failure.chain` is the texts.
-/

namespace DeclSurface

/-- Why a request fails. -/
inductive Cause where
  /-- A composition fails. -/
  | compose (e : ComposeError)
  /-- A library file is TOML and not a library. -/
  | libraryShape (file : String) (e : ShapeError)
  /-- A library file is not TOML. -/
  | libraryText (file : String)
  /-- A settings file is TOML and holds no settings. -/
  | settingsShape (e : ShapeError)
  /-- A settings file is not TOML. -/
  | settingsText
  /-- A text is no gate. -/
  | gate (e : GateError)
  /-- A text is no file name pattern. -/
  | glob (e : GlobError)
  /-- A file cannot be read or written. -/
  | access
  /-- A text names no output format. -/
  | format (name : String)
  /-- A library file says nothing about its library. -/
  | noLibrarySection
  /-- A nested fragment declares an ordering. -/
  | nestedOrdering (name : String)
  /-- An included file holds more than fragments and rules. -/
  | includedContents (file : Path)
  /-- A library defines no configuration of a name. -/
  | unknownConfiguration (name library : String) (available : List String)
  /-- A library holds no fragment of a name. -/
  | unknownFragment (name library : String)
  /-- The fragments around a fragment lead back to one of the same name. -/
  | endlessScopes (name : String)
  /-- There is no file where a library should be. -/
  | noLibraryFile (file : Path)
  /-- No directory from the working directory upward holds a library. -/
  | noLibraryAbove (cwd : Path)
  /-- A flag is given as an empty text. -/
  | emptyFlagName
  /-- A flag is given with a value and without a name. -/
  | namelessFlag (text : String)
  /-- A check finds errors. -/
  | checkErrors (library : String) (count : Nat)
  /-- A check finds warnings, and these are not let pass. -/
  | checkWarnings (library : String) (count : Nat)
deriving DecidableEq, Repr

/-- The name of a library file. -/
def libraryFileName : String := "Quay.toml"

/-- The text of a cause; one that only another program could put into words has none. -/
def Cause.text : Cause → Option String
  | compose e => some e.message
  | libraryShape file e => some ("invalid library file `" ++ file ++ "`: " ++ e.message)
  | libraryText file => some ("invalid library file `" ++ file ++ "`")
  | settingsShape e => some e.message
  | settingsText => none
  | gate e => some e.message
  | glob e => some e.message
  | access => none
  | format name =>
    some ("invalid output format '" ++ name ++ "', valid values: header, json, list")
  | noLibrarySection => some "missing [library] section"
  | nestedOrdering name =>
    some ("nested fragment `" ++ name ++ "` cannot declare ordering constraints\n"
      ++ "help: order nested fragments by listing them in the order they should appear")
  | includedContents file =>
    some ("included file " ++ file.text
      ++ " may only contain [[fragment]] and [[rewrite]] entries")
  | unknownConfiguration name library available =>
    some ("configuration `" ++ name ++ "` not found"
      ++ (if available.isEmpty then ": library `" ++ library ++ "` defines no configurations"
          else " (available: " ++ ", ".intercalate available
            ++ ")\nhelp: Run `quay list --configurations` to see available configurations"))
  | unknownFragment name library =>
    some ("fragment `" ++ name ++ "` not found in library `" ++ library
      ++ "`\nhelp: Run `quay list` to see all fragments")
  | endlessScopes name => some ("fragment `" ++ name ++ "` is nested in a fragment of its own name")
  | noLibraryFile file => some ("library file not found: " ++ file.text)
  | noLibraryAbove cwd =>
    some ("could not find `" ++ libraryFileName ++ "` in " ++ cwd.text
      ++ " or any parent directory\n"
      ++ "help: Create a Quay.toml, or point at one with `--library` or QUAY_LIBRARY")
  | emptyFlagName => some "empty flag name"
  | namelessFlag text => some ("invalid flag `" ++ text ++ "`")
  | checkErrors library count =>
    some ("library `" ++ library ++ "` has " ++ toString count ++ " error(s)")
  | checkWarnings library count =>
    some ("library `" ++ library ++ "` has " ++ toString count
      ++ " warning(s) (denied by --deny-warnings)")

/-- What was being done when a request failed. -/
inductive Context where
  | readingFile (file : Path)
  | writingFile (file : Path)
  | creatingDirectory (dir : Path)
  | parsingLibrary (file : Path)
  | includedFile (file : Path)
  | globPattern (pattern : String)
  /-- A gate of a fragment. -/
  | fragmentGate (gate fragment : String)
  /-- A gate of a rule. -/
  | rewriteGate (gate symbol : String)
  /-- A gate given on the command line. -/
  | givenGate (gate : String)
  | readingSettings (file : Path)
  | parsingSettings (file : Path)
  | composing (library : String) (configuration : Option String)
deriving DecidableEq, Repr

/-- The text of a context. -/
def Context.text : Context → String
  | readingFile file => "failed to read file: " ++ file.text
  | writingFile file => "failed to write file: " ++ file.text
  | creatingDirectory dir => "failed to create directory: " ++ dir.text
  | parsingLibrary file => "failed to parse library: " ++ file.text
  | includedFile file => "in included file: " ++ file.text
  | globPattern pattern => "invalid glob pattern: " ++ pattern
  | fragmentGate gate fragment => "invalid gate `" ++ gate ++ "` for fragment `" ++ fragment ++ "`"
  | rewriteGate gate symbol => "invalid gate `" ++ gate ++ "` for rewrite of `" ++ symbol ++ "`"
  | givenGate gate => "invalid gate `" ++ gate ++ "`"
  | readingSettings file => "failed to read config file: " ++ file.text
  | parsingSettings file => "failed to parse config file: " ++ file.text
  | composing library none => "failed to compose `" ++ library ++ "`"
  | composing library (some configuration) =>
    "failed to compose `" ++ library ++ "` (" ++ configuration ++ ")"

/-- A cause, and what was being done, outermost first. -/
structure Failure where
  contexts : List Context := []
  cause : Cause
deriving DecidableEq, Repr

namespace Failure

/-- A failure without context. -/
def ofCause (cause : Cause) : Failure := { cause }

/-- The failure in one more context. -/
def within (f : Failure) (context : Context) : Failure :=
  { f with contexts := context :: f.contexts }

/-- The texts of a failure, outermost first. -/
def chain (f : Failure) : List String :=
  f.contexts.map Context.text ++ f.cause.text.toList

/-- The outermost text. -/
def message (f : Failure) : String :=
  f.chain.head?.getD ""

end Failure

/-- What may fail. -/
abbrev Result (α : Type) : Type := Except Failure α

namespace Result

/-- Fails for a cause. -/
def fail {α : Type} (cause : Cause) : Result α :=
  .error (.ofCause cause)

/-- The result, in one more context if it is a failure. -/
def within {α : Type} (r : Result α) (context : Context) : Result α :=
  r.mapError fun f => f.within context

end Result

end DeclSurface
