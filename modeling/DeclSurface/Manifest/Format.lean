import DeclSurface.Manifest.Header
import DeclSurface.Manifest.Listing
import DeclSurface.Record.Manifest

/-!
# Output formats

* `OutputFormat`         — the three formats, with names and file extensions.
* `OutputFormat.parse?`  — the format that a name stands for.
* `Manifest.emit`        — a manifest in a format.
-/

namespace DeclSurface

/-- A format in which a manifest is written. -/
inductive OutputFormat where
  | header
  | json
  | list
deriving DecidableEq, Repr, Inhabited

namespace OutputFormat

/-- The name of a format. -/
def name : OutputFormat → String
  | header => "header"
  | json => "json"
  | list => "list"

/-- The extension of a file in a format. -/
def extension : OutputFormat → String
  | header => "h"
  | json => "json"
  | list => "txt"

/--
The format that a name stands for, whatever its case. No letter outside ASCII is the capital
of one in these names, so folding ASCII letters is enough.
-/
def parse? (s : String) : Option OutputFormat :=
  let folded := String.ofList (s.toList.map Char.toLower)
  if folded = "header" ∨ folded = "h" ∨ folded = "c" then some header
  else if folded = "json" then some json
  else if folded = "list" ∨ folded = "txt" then some list
  else none

/-- The message about a name that stands for no format. -/
def unknownMessage (s : String) : String :=
  "invalid output format '" ++ s ++ "', valid values: header, json, list"

end OutputFormat

/-- A manifest in a format; `fingerprint` says whether a header shows its fingerprint. -/
def Manifest.emit (m : Manifest) (format : OutputFormat) (fingerprint : Bool) : String :=
  match format with
  | .header => m.toHeader fingerprint
  | .json => m.toJson
  | .list => m.toListing

end DeclSurface
