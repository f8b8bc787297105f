import DeclSurface.Failure

/-!
# Reports of failures

* `Failure.text`    — the chain of a failure in one line.
* `Failure.report`  — what is written for the user before a command gives up.
-/

namespace DeclSurface

/-- The code under which invalid library files are documented. -/
def invalidLibraryCode : String := "quay::library::invalid"

namespace Failure

/-- The texts of a failure, outermost first. -/
def text (f : Failure) : String :=
  ": ".intercalate f.chain

/-- A failed composition with its diagnostic, and what was composed where that says more. -/
def composeReport (f : Failure) (e : ComposeError) (color : Bool) : String :=
  e.diagnostic.format color
    ++ (if f.message = e.message then ""
        else Diagnostic.format { severity := .note, message := f.message } color)
    ++ "help: Run `quay check` for a full report\n"

/-- What is written about a failure. -/
def report (f : Failure) (color : Bool) : String :=
  match f.cause with
  | .compose e => f.composeReport e color
  | .libraryShape _ _ => invalidLibraryCode
  | .libraryText _ => invalidLibraryCode
  | _ => "error: " ++ f.text ++ "\n"

end Failure

end DeclSurface
