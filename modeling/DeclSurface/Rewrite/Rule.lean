import DeclSurface.Gate.Basic
import DeclSurface.Text.Blank

/-!
# Rewrite rules

A rewrite rule gives a macro another value while certain fragments are processed, as a
`#define` and an `#undef` around a block of includes do.

* `RewriteRule`  — the substitution, its scope and what happens at its end.
* `macroName`    — the macro that a symbol such as `ATOMIC_VAR_INIT(x)` defines.
-/

namespace DeclSurface

/-- What becomes of a macro when a rewrite of it ends. -/
inductive RestoreAction where
  /-- It gets back the value it had before, or none if it had none. -/
  | reinstate
  /-- It is left undefined. -/
  | undefine
deriving DecidableEq, Repr, Inhabited

/-- A scoped substitution of one macro. -/
structure RewriteRule where
  /-- The macro, with its parameters if it takes any. -/
  symbol : String
  /-- The value while the rule is active. -/
  value : String
  /-- The fragments during which the rule is active. -/
  fragments : List String
  restore : RestoreAction
  /-- The condition under which the rule applies at all. -/
  gate : Gate
deriving DecidableEq, Inhabited

/-- Whether a rule is scoped to a fragment. -/
def RewriteRule.appliesTo (r : RewriteRule) (fragment : String) : Bool :=
  r.fragments.contains fragment

/-- The macro that a symbol defines: what stands before its parameter list, trimmed. -/
def macroName (symbol : String) : String :=
  Text.trimBlank (String.ofList (symbol.toList.takeWhile (· != '(')))

end DeclSurface
