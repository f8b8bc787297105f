/-!
# Configurations

* `Configuration`         — a named build variant of a library.
* `Configuration.allows`  — whether a top-level fragment may be part of it.
-/

namespace DeclSurface

/-- A named build variant: flags that are forced on, and the fragments it is made of. -/
structure Configuration where
  name : String
  description : Option String := none
  flags : List String := []
  /-- The top-level fragments it may include; none given means all. -/
  fragments : List String := []
deriving DecidableEq, Repr, Inhabited

/-- Whether a top-level fragment may be part of a configuration. -/
def Configuration.allows (c : Configuration) (fragment : String) : Bool :=
  c.fragments.isEmpty || c.fragments.contains fragment

end DeclSurface
