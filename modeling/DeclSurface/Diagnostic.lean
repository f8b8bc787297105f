/-!
# Diagnostics

A message for the user: what is wrong, in what context, and what may be done about it.

* `Diagnostic`         — the parts of a message.
* `Diagnostic.format`  — its text, plain or coloured for a terminal.
-/

namespace DeclSurface

/-- How serious a diagnostic is. -/
inductive Severity where
  | error
  | warning
  | note
  | help
deriving DecidableEq, Repr, Inhabited

namespace Severity

/-- The word for a severity. -/
def text : Severity → String
  | error => "error"
  | warning => "warning"
  | note => "note"
  | help => "help"

/-- The terminal's colour number for a severity. -/
def colour : Severity → String
  | error => "31"
  | warning => "33"
  | note => "36"
  | help => "32"

/-- The word for a severity, in bold colour if asked for. -/
def label (s : Severity) (color : Bool) : String :=
  if color then "\x1b[1;" ++ s.colour ++ "m" ++ s.text ++ "\x1b[0m" else s.text

end Severity

/-- A message with its context and suggestions. -/
structure Diagnostic where
  severity : Severity
  message : String
  /-- Lines that say where and why. -/
  context : List String := []
  /-- Ways to mend the defect. -/
  suggestions : List String := []
  /-- The file concerned. -/
  location : Option String := none
deriving DecidableEq, Repr, Inhabited

namespace Diagnostic

/-- Whether the diagnostic is an error. -/
def isError (d : Diagnostic) : Bool :=
  d.severity = .error

/-- The diagnostic with one more line of context. -/
def withContext (d : Diagnostic) (line : String) : Diagnostic :=
  { d with context := d.context ++ [line] }

/-- The suggestions as a numbered list that starts at `n`. -/
def numbered (n : Nat) : List String → String
  | [] => ""
  | s :: rest => "  " ++ toString n ++ ". " ++ s ++ "\n" ++ numbered (n + 1) rest

/-- The text of a diagnostic, a line for each of its parts. -/
def format (d : Diagnostic) (color : Bool) : String :=
  d.severity.label color ++ ": " ++ d.message ++ "\n"
    ++ (match d.location with
        | some path => "  --> " ++ path ++ "\n"
        | none => "")
    ++ String.join (d.context.map fun line => "  → " ++ line ++ "\n")
    ++ (if d.suggestions.isEmpty then ""
        else "\n" ++ Severity.help.label color ++ ": consider:\n" ++ numbered 1 d.suggestions)

end Diagnostic

end DeclSurface
