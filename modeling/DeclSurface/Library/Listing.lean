import DeclSurface.Gate.Basic
import DeclSurface.Library.Basic

/-!
# Listings of a library

What is in a library, a line for each fragment or rule, and some for each configuration.

* `Library.listFragments`, `Library.listRewrites`, `Library.listConfigurations`.
-/

namespace DeclSurface

/-- A gate in brackets, unless it is always open. -/
def bracketed (g : Gate) : String :=
  if g.isAlways then "" else " [" ++ g.text ++ "]"

/-- Two spaces for each level of nesting. -/
def indentation (depth : Nat) : String :=
  String.join (List.replicate depth "  ")

mutual
/-- A line for a fragment and for each nested in it. -/
def Fragment.listing (depth : Nat) : Fragment → String
  | ⟨name, gate, _, constraints, children⟩ =>
    indentation depth ++ name ++ bracketed gate
      ++ String.join (constraints.map fun c => " (" ++ c.display ++ ")") ++ "\n"
      ++ Fragment.listingOf (depth + 1) children

/-- The lines for some fragments. -/
def Fragment.listingOf (depth : Nat) : List Fragment → String
  | [] => ""
  | f :: fs => Fragment.listing depth f ++ Fragment.listingOf depth fs
end

/-- A line for a rule. -/
def RewriteRule.listing (r : RewriteRule) : String :=
  r.symbol ++ " -> " ++ r.value ++ bracketed r.gate
    ++ " (in " ++ ", ".intercalate r.fragments ++ ")\n"

/-- The lines for a configuration. -/
def Configuration.listing (c : Configuration) : String :=
  c.name
    ++ (match c.description with
        | some d => " - " ++ d ++ "\n"
        | none => "\n")
    ++ (if c.flags.isEmpty then "" else "  flags: " ++ " ".intercalate c.flags ++ "\n")
    ++ (if c.fragments.isEmpty then ""
        else "  fragments: " ++ ", ".intercalate c.fragments ++ "\n")

namespace Library

/-- The fragments of a library. -/
def listFragments (l : Library) : String :=
  Fragment.listingOf 0 l.fragments

/-- The rules of a library. -/
def listRewrites (l : Library) : String :=
  String.join (l.rewrites.map RewriteRule.listing)

/-- The configurations of a library, or a remark that there are none. -/
def listConfigurations (l : Library) : String :=
  if l.configurations.isEmpty then
    "# library `" ++ l.name ++ "` defines no configurations\n"
  else String.join (l.configurations.values.map Configuration.listing)

end Library

end DeclSurface
