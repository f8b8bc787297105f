import DeclSurface.Manifest.Basic

/-!
# Manifests as listings

* `Listing.event`        — an event in a comment.
* `Manifest.toListing`   — a line for each item, then the rewrite log as comments.
-/

namespace DeclSurface

/-- An event as a comment. -/
def Listing.event (e : RewriteEvent) : String :=
  "#   @" ++ toString e.position ++ " "
    ++ (match e.value, e.action with
        | some value, .apply => "apply " ++ e.symbol ++ " = " ++ value
        | some value, .restore => "restore " ++ e.symbol ++ " = " ++ value
        | none, _ => "undefine " ++ e.symbol)
    ++ " (" ++ e.fragment ++ ")\n"

/-- A manifest with one item a line, and a summary of its rewrite log if that is not empty. -/
def Manifest.toListing (m : Manifest) : String :=
  String.join (m.items.map fun i => i.item.display ++ "\n")
    ++ (if m.rewrites.isEmpty then ""
        else "# rewrites:\n" ++ String.join (m.rewrites.map Listing.event))

end DeclSurface
