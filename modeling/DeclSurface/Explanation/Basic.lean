import DeclSurface.Surface.Basic

/-!
# Explanations

Why a fragment is part of a surface or not, and where it stands: its gate with the flags that
the gate mentions, what the configuration says, the rules that its scope and those around it
bring, and its place in the composed surface.

* `Fragment.scopes?`  — a fragment with those around it, found by name.
* `Explanation`       — all that is known about one fragment.
* `Library.explain`   — explains a fragment.
-/

namespace DeclSurface

/-! ## Scopes -/

/--
A fragment and those around it, outermost first. Each is found as the first that holds one of
the name at hand; where names repeat, the search may come back to where it was, and `steps`
bounds it.
-/
def Fragment.climb (fs : List Fragment) : (steps : Nat) → Fragment → Option (List Fragment)
  | 0, _ => none
  | steps + 1, f =>
    match Fragment.parent? fs f.name with
    | none => some [f]
    | some p => (climb fs steps p).map (· ++ [f])

/--
A fragment and those around it, outermost first. There are no more names to pass through than
fragments, so a search that takes more steps would never end.
-/
def Fragment.scopes? (fs : List Fragment) (f : Fragment) : Option (List Fragment) :=
  climb fs (allOf fs).length f

/-! ## Explanations -/

/-- A rule as it affects a fragment. -/
structure ExplainedRule where
  rule : RewriteRule
  /-- Whether the gate of the rule is open. -/
  active : Bool
  /-- The fragment whose scope applies the rule: the one explained or one around it. -/
  scope : String
deriving DecidableEq, Inhabited

/-- Where a fragment stands in a surface. -/
structure Placement where
  /-- Its place among the fragments of the surface, if it is one of them. -/
  position : Option Nat
  /-- The number of fragments of the surface. -/
  total : Nat
deriving DecidableEq, Repr, Inhabited

/-- All that is known about one fragment under a flag set. -/
structure Explanation where
  fragment : String
  /-- The fragment around it. -/
  parent : Option String
  gate : Gate
  /-- The flags that the gate mentions, and whether they are enabled. -/
  flags : List (String × Bool)
  gatePasses : Bool
  /-- Whether the configuration allows it, if one is chosen. -/
  allowed : Option Bool
  constraints : List Constraint
  /-- The rules of its scope and of those around it, outermost scope first. -/
  rules : List ExplainedRule
  items : List Item
  /-- Its place, or why the surface cannot be composed. -/
  placement : Except ComposeError Placement

namespace Explanation

/-- The place of the fragment, if it is part of the surface. -/
def position (e : Explanation) : Option Nat :=
  match e.placement with
  | .ok p => p.position
  | .error _ => none

/-- Whether the fragment is part of the surface. -/
def included (e : Explanation) : Bool :=
  e.position.isSome

/-- The number of fragments of the surface; none if it cannot be composed. -/
def total (e : Explanation) : Nat :=
  match e.placement with
  | .ok p => p.total
  | .error _ => 0

/-- Why the surface cannot be composed. -/
def failure (e : Explanation) : Option ComposeError :=
  match e.placement with
  | .ok _ => none
  | .error e => some e

end Explanation

namespace Library

/-- The rules that a scope brings. -/
def explainedRules (l : Library) (flags : FlagSet) (scope : String) : List ExplainedRule :=
  (l.rulesFor scope).map fun rule => { rule, active := rule.gate.holds flags, scope }

/-- Where a fragment stands in the surface for a configuration. -/
def placement (l : Library) (configuration : Option Configuration) (flags : FlagSet)
    (name : String) : Except ComposeError Placement := do
  let m ← l.manifest configuration flags
  .ok { position := m.positionOf name, total := m.fragments.length }

/-- What is known about a fragment, given the scopes it stands in, outermost first. -/
def explanation (l : Library) (configuration : Option Configuration) (flags : FlagSet)
    (f : Fragment) (scopes : List Fragment) : Explanation :=
  let effective := (l.plan configuration).effectiveFlags flags
  let top := (scopes.head?.getD f).name
  { fragment := f.name
    parent := (Fragment.parent? l.fragments f.name).map (·.name)
    gate := f.gate
    flags := f.gate.flagNames.keys.map fun n => (n, effective.isEnabled n)
    gatePasses := f.gate.holds effective
    allowed := configuration.map (·.allows top)
    constraints := f.constraints
    rules := scopes.flatMap fun s => l.explainedRules effective s.name
    items := f.items
    placement := l.placement configuration flags f.name }

/-- Explains a fragment under a flag set, for a configuration by name if one is given. -/
def explain (l : Library) (fragment : String) (flags : FlagSet)
    (configuration : Option String) : Result Explanation :=
  match l.fragment? fragment with
  | none => Result.fail (.unknownFragment fragment l.name)
  | some f => do
    let c ← l.chosen configuration
    match Fragment.scopes? l.fragments f with
    | none => Result.fail (.endlessScopes fragment)
    | some scopes => .ok (l.explanation c flags f scopes)

end Library

end DeclSurface
