import DeclSurface.Diagnostic

/-!
# Why a composition fails

Each failure is a defect of the fragments, rules or configuration at hand, or a request to
stop. A failed composition yields nothing.

* `ComposeError`             — the causes.
* `ComposeError.message`     — one line for each.
* `ComposeError.diagnostic`  — context and suggestions.
-/

namespace DeclSurface

/-- Why the ordering of a fragment cannot be met. -/
inductive OrderDefect where
  /-- A nested fragment stands where `parent` puts it and declares an ordering all the same. -/
  | nestedDeclares (parent : String)
  /-- The fragment is ordered relative to itself. -/
  | itself
  /-- The other fragment is nested, so it has no place of its own. -/
  | otherNested
  /-- The fragment must come both before and after the other. -/
  | bothWays
deriving DecidableEq, Repr

/-- The wording of an ordering defect of `fragment` with respect to `other`. -/
def OrderDefect.text (fragment other : String) : OrderDefect → String
  | nestedDeclares parent =>
    "nested fragment `" ++ fragment ++ "` is placed by `" ++ parent
      ++ "` and cannot declare ordering constraints"
  | itself => "`" ++ other ++ "` is ordered relative to itself"
  | otherNested => "`" ++ other ++ "` is a nested fragment and cannot be ordered against"
  | bothWays => "it must both precede and follow `" ++ other ++ "`"

/-- What refers to a fragment by name. -/
inductive Referrer where
  | fragment (name : String)
  | rewrite (symbol : String)
  | configuration (name : String)
deriving DecidableEq, Repr

/-- The wording of a referrer. -/
def Referrer.text : Referrer → String
  | fragment name => "fragment `" ++ name ++ "`"
  | rewrite symbol => "rewrite `" ++ symbol ++ "`"
  | configuration name => "configuration `" ++ name ++ "`"

/-- Why a composition fails. -/
inductive ComposeError where
  /-- Two fragments share a name. -/
  | duplicateFragment (name : String)
  /-- A rule gives a macro another value or spelling than a rule that is still active. -/
  | rewriteConflict (symbol activeValue activeFragment value fragment : String)
  /-- The fragments lie on a cycle of ordering constraints. -/
  | cycle (fragments : List String)
  /-- The ordering of a fragment cannot be met. -/
  | conflict (fragment other : String) (defect : OrderDefect)
  /-- An item is declared twice, and not both times as harmless to repeat. -/
  | duplicateDeclaration (identity first second : String)
  /-- A name refers to no fragment. -/
  | unknownFragment (name : String) (referrer : Referrer)
  /-- The run was asked to stop after some fragments. -/
  | cancelled (completed : Nat)
deriving DecidableEq, Repr

namespace ComposeError

/-- The error in one line. -/
def message : ComposeError → String
  | duplicateFragment name => "duplicate fragment `" ++ name ++ "`"
  | rewriteConflict symbol _ _ _ _ => "conflicting rewrites of `" ++ symbol ++ "`"
  | cycle fragments => "ordering cycle between fragments: " ++ ", ".intercalate fragments
  | conflict fragment other defect =>
    "contradictory ordering for fragment `" ++ fragment ++ "`: " ++ defect.text fragment other
  | duplicateDeclaration identity _ _ => "duplicate declaration `" ++ identity ++ "`"
  | unknownFragment name referrer =>
    "unknown fragment `" ++ name ++ "` (referenced by " ++ referrer.text ++ ")"
  | cancelled completed =>
    "composition cancelled after " ++ toString completed ++ " fragment(s)"

/-- The last part of the code under which the error is documented. -/
def code : ComposeError → String
  | duplicateFragment _ => "duplicate_fragment"
  | rewriteConflict .. => "rewrite_conflict"
  | cycle _ => "cycle"
  | conflict .. => "conflict"
  | duplicateDeclaration .. => "duplicate_declaration"
  | unknownFragment .. => "unknown_fragment"
  | cancelled _ => "cancelled"

/-- Advice that does not depend on the names involved. -/
def help : ComposeError → Option String
  | duplicateFragment _ =>
    some "Rename one of the fragments; names must be unique across the library"
  | rewriteConflict .. =>
    some "Give both rules the same value, or scope them to fragments that never nest"
  | cycle _ => some "Remove one of the `precede`/`follow` constraints forming the cycle"
  | duplicateDeclaration .. =>
    some "Mark both occurrences `idempotent = true` if repeating the declaration is harmless"
  | conflict .. => none
  | unknownFragment .. => none
  | cancelled _ => none

/-- The error with its context and suggestions. -/
def diagnostic : ComposeError → Diagnostic
  | duplicateFragment name =>
    { severity := .error
      message := "fragment `" ++ name ++ "` is defined more than once"
      context := ["nested fragments share the namespace of top-level fragments"]
      suggestions := ["Rename one of the `" ++ name ++ "` fragments"] }
  | rewriteConflict symbol activeValue activeFragment value fragment =>
    { severity := .error
      message := "conflicting rewrites of `" ++ symbol ++ "`"
      context :=
        ["`" ++ activeFragment ++ "` rewrites it to `" ++ activeValue ++ "` and is still active",
         "`" ++ fragment ++ "` rewrites it to `" ++ value ++ "`"]
      suggestions :=
        ["Use the same substitution value in both rules",
         "Move `" ++ fragment ++ "` out of `" ++ activeFragment ++ "`'s nested fragments"] }
  | cycle fragments =>
    { severity := .error
      message := "ordering cycle between fragments"
      context := ["cycle: " ++ " -> ".intercalate (fragments ++ fragments.take 1)]
      suggestions := ["Break the cycle by removing a `precede` or `follow` constraint"] }
  | conflict fragment other defect =>
    { severity := .error
      message := "contradictory ordering for `" ++ fragment ++ "`"
      context := [defect.text fragment other]
      suggestions :=
        ["Keep a single constraint between `" ++ fragment ++ "` and `" ++ other ++ "`"] }
  | duplicateDeclaration identity first second =>
    { severity := .error
      message := "duplicate declaration `" ++ identity ++ "`"
      context := ["first declared by `" ++ first ++ "`", "declared again by `" ++ second ++ "`"]
      suggestions :=
        ["Mark both occurrences `idempotent = true` if the header is include-guarded",
         "Remove the declaration from `" ++ second ++ "`"] }
  | unknownFragment name referrer =>
    { severity := .error
      message := "unknown fragment `" ++ name ++ "`"
      context := ["referenced by " ++ referrer.text]
      suggestions :=
        ["Check that the fragment name is spelled correctly",
         "Run `quay list` to see all fragments"] }
  | cancelled completed =>
    { severity := .error
      message := "composition cancelled after " ++ toString completed ++ " fragment(s)"
      context := ["another composition run in the same batch failed"] }

end ComposeError

end DeclSurface
