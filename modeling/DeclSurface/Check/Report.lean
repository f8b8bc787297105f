import DeclSurface.Check.Finding

/-!
# Check reports

Trial compositions find the same defect more than once; a report holds it once.

* `Diagnostic.sameDefect`  — which diagnostics are taken for the same.
* `CheckReport`            — a library's findings as diagnostics.
* `Library.check`          — the report on a library.
* `CheckReport.format`     — its text.
-/

namespace DeclSurface

/-- Whether two diagnostics are taken for the same: by message and first line of context. -/
def Diagnostic.sameDefect (a b : Diagnostic) : Bool :=
  a.message = b.message && a.context.head? = b.context.head?

/-- Diagnostics with one more, unless they hold the same defect already. -/
def addDiagnostic (ds : List Diagnostic) (d : Diagnostic) : List Diagnostic :=
  if ds.any fun e => e.sameDefect d then ds else ds ++ [d]

/-- Diagnostics in order, each defect where it first stands. -/
def mergeDiagnostics (ds : List Diagnostic) : List Diagnostic :=
  ds.foldl addDiagnostic []

/-- What a check says about a library. -/
structure CheckReport where
  library : String
  /-- The number of trial compositions that were run. -/
  trials : Nat
  diagnostics : List Diagnostic
deriving DecidableEq, Repr, Inhabited

namespace CheckReport

/-- The number of errors. -/
def errorCount (r : CheckReport) : Nat :=
  (r.diagnostics.filter Diagnostic.isError).length

/-- The number of findings that are no errors. -/
def warningCount (r : CheckReport) : Nat :=
  r.diagnostics.length - r.errorCount

/-- Whether there are no errors. -/
def isOk (r : CheckReport) : Bool :=
  r.errorCount = 0

/-- The last line of a report. -/
def summary (r : CheckReport) : String :=
  "check `" ++ r.library ++ "`: " ++ (if r.isOk then "ok" else "FAILED") ++ " ("
    ++ toString r.errorCount ++ " error(s), " ++ toString r.warningCount ++ " warning(s), "
    ++ toString r.trials ++ " trial composition(s))\n"

/-- The text of a report. -/
def format (r : CheckReport) (color : Bool) : String :=
  String.join (r.diagnostics.map fun d => d.format color ++ "\n") ++ r.summary

end CheckReport

/-- The report on a library. -/
def Library.check (l : Library) : CheckReport :=
  { library := l.name
    trials := l.trialCount
    diagnostics := mergeDiagnostics (l.findings.map Finding.diagnostic) }

end DeclSurface
