import DeclSurface.NameMap
import DeclSurface.Rewrite.Rule

/-!
# Rewrite events

Everything that happens to a macro during composition is an event in a log. The log is
rendered as preprocessor directives, so replaying it gives the macros that are defined at any
point of the surface.

* `RewriteEvent`   — one application or restoration.
* `replay`         — the macros defined after a log.
-/

namespace DeclSurface

/-- Whether an event begins a rewrite or ends one. -/
inductive EventAction where
  | apply
  | restore
deriving DecidableEq, Repr, Inhabited

/-- One entry of the rewrite log. -/
structure RewriteEvent where
  action : EventAction
  /-- The symbol that is defined or undefined. -/
  symbol : String
  /-- The value after the event; without one the macro is undefined. -/
  value : Option String
  /-- The fragment whose scope caused the event. -/
  fragment : String
  /-- The number of items that stand before the event. -/
  position : Nat
deriving DecidableEq, Repr, Inhabited

/-- The macros defined after one event. -/
def RewriteEvent.effect (e : RewriteEvent) (symbols : NameMap String) : NameMap String :=
  match e.value with
  | some value => symbols.insert (macroName e.symbol) value
  | none => symbols.erase (macroName e.symbol)

/-- The macros defined after a log, from those defined before it. -/
def replay (symbols : NameMap String) (log : List RewriteEvent) : NameMap String :=
  log.foldl (fun s e => e.effect s) symbols

end DeclSurface
