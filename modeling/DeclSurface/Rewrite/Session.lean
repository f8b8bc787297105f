import DeclSurface.Rewrite.Engine

/-!
# Rewrite sessions

A session is an engine driven step by step: scopes are opened and closed, and rules are
applied in the innermost open one.

* `Session.Step`, `Session.Outcome` — what is asked for, and what comes of it.
* `Session.step`                    — one step.
-/

namespace DeclSurface

/-- An open scope: the fragment it belongs to, and how many rewrites were active before it. -/
structure Scope where
  fragment : String
  mark : Nat
deriving DecidableEq, Repr, Inhabited

/-- An engine with its open scopes, innermost first. -/
structure Session where
  engine : Engine := {}
  scopes : List Scope := []
deriving DecidableEq, Inhabited

namespace Session

/-- A step of a session. -/
inductive Step where
  /-- Opens a scope for a fragment. -/
  | open (fragment : String)
  /-- Applies a rule in the innermost scope. -/
  | apply (rule : RewriteRule)
  /-- Sets the position of the events that follow. -/
  | position (n : Nat)
  /-- Closes the innermost scope. -/
  | close
deriving DecidableEq

/-- What comes of a step. -/
inductive Outcome where
  /-- The step is done. -/
  | done
  /-- The rule contradicts an active one; nothing has changed. -/
  | refused (e : ComposeError)
  /-- There is no open scope; nothing has changed. -/
  | noScope
deriving DecidableEq, Repr

/-- One step of a session. -/
def step (s : Session) : Step → Outcome × Session
  | .open fragment =>
    (.done, { s with scopes := ⟨fragment, s.engine.active.length⟩ :: s.scopes })
  | .position n => (.done, { s with engine := s.engine.setPosition n })
  | .apply rule =>
    match s.scopes with
    | [] => (.noScope, s)
    | scope :: _ =>
      match s.engine.apply rule scope.fragment with
      | .ok engine => (.done, { s with engine })
      | .error e => (.refused e, s)
  | .close =>
    match s.scopes with
    | [] => (.noScope, s)
    | scope :: scopes => (.done, { engine := s.engine.closeTo scope.mark, scopes })

/-- A session after a sequence of steps. -/
def run (s : Session) (steps : List Step) : Session :=
  steps.foldl (fun s step => (s.step step).2) s

end Session

end DeclSurface
