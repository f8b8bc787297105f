import DeclSurface.Gate.Basic
import DeclSurface.Declaration

/-!
# Fragments

A fragment is a named, gated group of declarations. It may hold nested fragments, and a
top-level fragment may say which others it must come before or after.

* `Fragment`            — the tree.
* `Fragment.names`      — its name and those nested in it, depth first.
* `Fragment.find?`      — the first fragment of a name in a list of trees.
* `Fragment.allOf`      — every fragment of a list of trees, depth first.
-/

namespace DeclSurface

/-- An ordering constraint on the fragment that declares it. -/
inductive Constraint where
  /-- Before the named fragment. -/
  | mustPrecede (name : String)
  /-- After the named fragment. -/
  | mustFollow (name : String)
deriving DecidableEq, Repr, Inhabited

namespace Constraint

/-- The fragment a constraint refers to. -/
def target : Constraint → String
  | mustPrecede name => name
  | mustFollow name => name

/-- A constraint in words. -/
def display : Constraint → String
  | mustPrecede name => "must precede `" ++ name ++ "`"
  | mustFollow name => "must follow `" ++ name ++ "`"

end Constraint

/-- A named, gated group of declarations. -/
structure Fragment where
  name : String
  gate : Gate
  items : List Item
  constraints : List Constraint
  /-- The nested fragments, in the order in which they are placed. -/
  children : List Fragment
deriving Inhabited

namespace Fragment

mutual
/-- Whether two fragments are the same. -/
def decEq : (f g : Fragment) → Decidable (f = g)
  | ⟨name, gate, items, constraints, children⟩, ⟨name', gate', items', constraints', children'⟩ =>
    have : Decidable (children = children') := decEqAll children children'
    decidable_of_iff (name = name' ∧ gate = gate' ∧ items = items' ∧ constraints = constraints' ∧
      children = children') (by rw [mk.injEq])

/-- Whether two lists of fragments are the same. -/
def decEqAll : (fs gs : List Fragment) → Decidable (fs = gs)
  | [], [] => isTrue rfl
  | [], _ :: _ => isFalse (List.cons_ne_nil _ _).symm
  | _ :: _, [] => isFalse (List.cons_ne_nil _ _)
  | f :: fs, g :: gs =>
    have : Decidable (f = g) := decEq f g
    have : Decidable (fs = gs) := decEqAll fs gs
    decidable_of_iff (f = g ∧ fs = gs) (by rw [List.cons.injEq])
end

instance : DecidableEq Fragment := decEq

mutual
/-- The name of a fragment, then those of the fragments nested in it, depth first. -/
def names : Fragment → List String
  | ⟨name, _, _, _, children⟩ => name :: namesOf children

/-- The names in a list of trees. -/
def namesOf : List Fragment → List String
  | [] => []
  | f :: fs => names f ++ namesOf fs
end

mutual
/-- A fragment, then the fragments nested in it, depth first. -/
def all : Fragment → List Fragment
  | ⟨name, gate, items, constraints, children⟩ =>
    ⟨name, gate, items, constraints, children⟩ :: allOf children

/-- Every fragment in a list of trees. -/
def allOf : List Fragment → List Fragment
  | [] => []
  | f :: fs => all f ++ allOf fs
end

/-- The first fragment of a name, depth first. -/
def find? (fs : List Fragment) (name : String) : Option Fragment :=
  (allOf fs).find? (·.name == name)

/-- Whether the fragment itself, and not one nested deeper, holds a nested fragment `name`. -/
def holds (f : Fragment) (name : String) : Bool :=
  f.children.any (·.name == name)

/-- The first fragment, depth first, that directly holds a fragment of a name. -/
def parent? (fs : List Fragment) (name : String) : Option Fragment :=
  (allOf fs).find? (·.holds name)

mutual
theorem map_name_all : ∀ f : Fragment, (all f).map (·.name) = names f
  | ⟨_, _, _, _, children⟩ => by
    rw [all, names, List.map_cons, map_name_allOf children]

theorem map_name_allOf : ∀ fs : List Fragment, (allOf fs).map (·.name) = namesOf fs
  | [] => rfl
  | f :: fs => by
    rw [allOf, namesOf, List.map_append, map_name_all f, map_name_allOf fs]
end

end Fragment

end DeclSurface
