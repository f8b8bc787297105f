import DeclSurface.Gate.Basic

/-!
# Flag sets

The flags of one composition. A flag may carry a value, as `-DNAME=value` gives it one. The
set is fixed when composition starts: gates are evaluated over it, and it says which macros
are defined before any rewrite.

* `FlagSet.enable`, `enableWithValue`, `disable`, `merge` — building a set.
* `FlagSet.baseline`  — the macros a set defines.
* `Gate.holds`        — a gate under a flag set.
-/

namespace DeclSurface

/-- The enabled flags, and the values of those that were defined with one. -/
structure FlagSet where
  enabled : NameSet := ∅
  values : NameMap String := ∅
deriving DecidableEq, Inhabited

namespace FlagSet

/-- The set without flags. -/
def empty : FlagSet := {}

/-- Enables a flag; a value given to it before stays. -/
def enable (s : FlagSet) (name : String) : FlagSet :=
  { s with enabled := s.enabled.add name }

/-- Enables a flag with a value. -/
def enableWithValue (s : FlagSet) (name value : String) : FlagSet :=
  { enabled := s.enabled.add name, values := s.values.insert name value }

/-- Disables a flag and forgets its value. -/
def disable (s : FlagSet) (name : String) : FlagSet :=
  { enabled := s.enabled.erase name, values := s.values.erase name }

/-- The flags of both sets; where both give a flag a value, the one of `t` counts. -/
def merge (s t : FlagSet) : FlagSet :=
  { enabled := s.enabled.join t.enabled, values := s.values.union t.values }

/-- The set that enables the given names. -/
def ofNames (names : List String) : FlagSet :=
  names.foldl enable empty

/-- Whether a flag is enabled. -/
def isEnabled (s : FlagSet) (name : String) : Bool :=
  s.enabled.contains name

/-- The value a flag was defined with. -/
def value (s : FlagSet) (name : String) : Option String :=
  s.values.get? name

/-- The enabled flags in order. -/
def names (s : FlagSet) : List String :=
  s.enabled.keys

/-- The number of enabled flags. -/
def size (s : FlagSet) : Nat :=
  s.enabled.size

/-- Whether no flag is enabled. -/
def isEmpty (s : FlagSet) : Bool :=
  s.enabled.isEmpty

/-- The macros that the set defines: each enabled flag with its value, or `1` without one. -/
def baseline (s : FlagSet) : NameMap String :=
  s.enabled.mapWithKey fun name _ => (s.value name).getD "1"

theorem isEnabled_enable (s : FlagSet) (name n : String) :
    (s.enable name).isEnabled n = (n == name || s.isEnabled n) :=
  NameSet.contains_add s.enabled name n

theorem isEnabled_enableWithValue (s : FlagSet) (name value n : String) :
    (s.enableWithValue name value).isEnabled n = (n == name || s.isEnabled n) :=
  NameSet.contains_add s.enabled name n

theorem isEnabled_disable (s : FlagSet) (name n : String) :
    (s.disable name).isEnabled n = (n != name && s.isEnabled n) := by
  rw [isEnabled, disable, NameMap.contains, NameMap.get?_erase]
  by_cases h : n = name
  · simp [h]
  · simp [h, isEnabled, NameMap.contains]

theorem value_enable (s : FlagSet) (name n : String) : (s.enable name).value n = s.value n :=
  rfl

theorem value_enableWithValue (s : FlagSet) (name value n : String) :
    (s.enableWithValue name value).value n = if n = name then some value else s.value n :=
  NameMap.get?_insert s.values name n value

theorem value_disable (s : FlagSet) (name n : String) :
    (s.disable name).value n = if n = name then none else s.value n :=
  NameMap.get?_erase s.values name n

/-- The macros that are defined are just the enabled flags. -/
theorem get?_baseline (s : FlagSet) (n : String) :
    s.baseline.get? n = if s.isEnabled n then some ((s.value n).getD "1") else none := by
  rw [baseline, NameMap.get?_mapWithKey, isEnabled, NameMap.contains]
  cases s.enabled.get? n with
  | none => rfl
  | some u => rfl

end FlagSet

/-- Whether a gate is open under a flag set. -/
def Gate.holds (g : Gate) (flags : FlagSet) : Bool :=
  g.eval flags.isEnabled

end DeclSurface
