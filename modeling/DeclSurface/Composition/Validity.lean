import DeclSurface.Composition.Store
import DeclSurface.Configuration
import DeclSurface.Rewrite.Rule

/-!
# Validity of a plan

What is checked before composition and does not depend on flags: ordering constraints stand
on top-level fragments, name other top-level fragments and do not contradict each other, and
rules and configuration name fragments that exist.

* `Plan`           — the rules and the configuration of a composition.
* `Plan.validate`  — the first defect, if there is one.
-/

namespace DeclSurface

/-- What a store is composed with: rewrite rules, and a configuration if one is chosen. -/
structure Plan where
  rules : List RewriteRule := []
  configuration : Option Configuration := none
deriving DecidableEq, Inhabited

namespace Plan

mutual
/-- No fragment nested in this one declares an ordering. -/
def checkNested : Fragment → Except ComposeError Unit
  | ⟨name, _, _, _, children⟩ => checkChildren name children

/-- No fragment among the children of `parent`, nor one nested in them, declares an ordering. -/
def checkChildren (parent : String) : List Fragment → Except ComposeError Unit
  | [] => .ok ()
  | f :: fs =>
    match f.constraints with
    | c :: _ => .error (.conflict f.name c.target (.nestedDeclares parent))
    | [] => do
      checkNested f
      checkChildren parent fs
end

/-- Whether the constraints ask for both orders with respect to `other`. -/
def bothWays (cs : List Constraint) (other : String) : Bool :=
  cs.contains (.mustPrecede other) && cs.contains (.mustFollow other)

/--
The constraints of the top-level fragment `name` name other top-level fragments, and none
contradicts one that stands before it; `before` holds those already checked.
-/
def checkConstraints (store : FragmentStore) (name : String) (before : List Constraint) :
    List Constraint → Except ComposeError Unit
  | [] => .ok ()
  | c :: cs =>
    let other := c.target
    if other = name then .error (.conflict name other .itself)
    else if !store.topLevel.contains other then
      if store.contains other then .error (.conflict name other .otherNested)
      else .error (.unknownFragment other (.fragment name))
    else if bothWays (before ++ [c]) other then .error (.conflict name other .bothWays)
    else checkConstraints store name (before ++ [c]) cs

/-- The ordering of each top-level fragment is sound. -/
def checkFragments (store : FragmentStore) : List Fragment → Except ComposeError Unit
  | [] => .ok ()
  | f :: fs => do
    checkNested f
    checkConstraints store f.name [] f.constraints
    checkFragments store fs

/-- Every name of a list passes a test; `referrer` is what names them. -/
def checkNames (known : String → Bool) (referrer : Referrer) :
    List String → Except ComposeError Unit
  | [] => .ok ()
  | n :: ns =>
    if known n then checkNames known referrer ns else .error (.unknownFragment n referrer)

/-- The rules name fragments of the store. -/
def checkRules (store : FragmentStore) : List RewriteRule → Except ComposeError Unit
  | [] => .ok ()
  | r :: rs => do
    checkNames store.contains (.rewrite r.symbol) r.fragments
    checkRules store rs

/-- The first defect of the store's ordering, the rules or the configuration, if any. -/
def validate (plan : Plan) (store : FragmentStore) : Except ComposeError Unit := do
  checkFragments store store.fragments
  checkRules store plan.rules
  match plan.configuration with
  | none => .ok ()
  | some c => checkNames store.topLevel.contains (.configuration c.name) c.fragments

end Plan

end DeclSurface
