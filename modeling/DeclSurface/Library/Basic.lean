import DeclSurface.Composition.Store
import DeclSurface.Configuration
import DeclSurface.Failure
import DeclSurface.NameMap
import DeclSurface.Rewrite.Rule

/-!
# Libraries

A library describes a declaration surface: fragments, rewrite rules and named configurations.

* `Library.store`           — its fragments in a store.
* `Library.fragment?`       — a fragment by name, at any depth.
* `Library.configuration`   — a configuration by name.
* `Library.referencedFlags` — the flags that any gate mentions.
-/

namespace DeclSurface

/-- A description of a declaration surface. -/
structure Library where
  name : String
  description : Option String := none
  /-- The directory of the library file. -/
  root : Path := ⟨""⟩
  /-- The top-level fragments in registration order. -/
  fragments : List Fragment := []
  rewrites : List RewriteRule := []
  configurations : NameMap Configuration := ∅
  /-- The files that the library was read from. -/
  sources : List Path := []
deriving DecidableEq, Inhabited

namespace Library

/-- The fragments of a library, registered in order. -/
def store (l : Library) : Except ComposeError FragmentStore :=
  FragmentStore.ofFragments l.fragments

/-- The first fragment of a name, depth first. -/
def fragment? (l : Library) (name : String) : Option Fragment :=
  Fragment.find? l.fragments name

/-- A configuration by name. -/
def configuration (l : Library) (name : String) : Result Configuration :=
  match l.configurations.get? name with
  | some c => .ok c
  | none => Result.fail (.unknownConfiguration name l.name l.configurations.keys)

/-- The configuration of a name, if one is given. -/
def chosen (l : Library) : Option String → Result (Option Configuration)
  | none => .ok none
  | some name => do
    let c ← l.configuration name
    .ok (some c)

/-- The rules scoped to a fragment. -/
def rulesFor (l : Library) (fragment : String) : List RewriteRule :=
  l.rewrites.filter (·.appliesTo fragment)

/-- The flags that the gates of fragments, at any depth, and of rules mention. -/
def referencedFlags (l : Library) : NameSet :=
  NameSet.ofNames ((Fragment.allOf l.fragments).flatMap (fun f => f.gate.mentions)
    ++ l.rewrites.flatMap fun r => r.gate.mentions)

end Library

end DeclSurface
