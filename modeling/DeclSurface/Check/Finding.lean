import DeclSurface.Check.Naming
import DeclSurface.Surface.Basic

/-!
# What a check finds

A check of a library looks at its names, then registers its fragments, then composes it on
trial: plainly and for each configuration, with no flags and with every flag that a gate
mentions.

* `Finding`                  — one defect or oddity, and `Finding.diagnostic` its wording.
* `Library.nameFindings`     — ill-formed names, and fragments and rules that do nothing.
* `Library.trials`           — the trial compositions.
* `Library.findings`         — all that is found, in order.
-/

namespace DeclSurface

/-! ## Trials -/

/-- The flags of a trial. -/
inductive TrialFlags where
  | none
  | every
deriving DecidableEq, Repr

/-- A trial composition. -/
structure Trial where
  configuration : Option Configuration
  flags : TrialFlags
deriving DecidableEq

/-- What was composed on trial, in words. -/
def Trial.text (t : Trial) : String :=
  (match t.configuration with
    | some c => "while composing configuration `" ++ c.name ++ "` "
    | none => "while composing ")
  ++ (match t.flags with
    | .none => "with no flags"
    | .every => "with every flag enabled")

namespace Library

/-- The flag set of a trial. -/
def trialFlags (l : Library) : TrialFlags → FlagSet
  | .none => .empty
  | .every => .ofNames l.referencedFlags.keys

/-- The trial compositions of a library. -/
def trials (l : Library) : List Trial :=
  (none :: l.configurations.values.map some).flatMap fun configuration =>
    [{ configuration, flags := .none }, { configuration, flags := .every }]

/-- The outcome of a trial. -/
def outcome (l : Library) (store : FragmentStore) (t : Trial) : Except ComposeError Manifest :=
  (l.plan t.configuration).compose store (l.trialFlags t.flags)

end Library

/-! ## Findings -/

/-- What a flag is mentioned by. -/
inductive FlagPlace where
  | fragmentGate (fragment : String)
  | rewriteGate (symbol : String)
  | configuration (name : String)
deriving DecidableEq, Repr

/-- The wording of a place. -/
def FlagPlace.text : FlagPlace → String
  | fragmentGate fragment => "gate of `" ++ fragment ++ "`"
  | rewriteGate symbol => "gate of rewrite `" ++ symbol ++ "`"
  | configuration name => "configuration `" ++ name ++ "`"

/-- What a check finds. -/
inductive Finding where
  /-- A fragment has a name that is not well formed. -/
  | fragmentName (name : String)
  /-- A flag has a name that is not well formed. -/
  | flagName (flag : String) (place : FlagPlace)
  /-- A fragment has neither items nor nested fragments. -/
  | emptyFragment (name : String) (nested : Bool)
  /-- A rule rewrites what is no macro. -/
  | rewriteSymbol (symbol : String)
  /-- A rule is scoped to no fragment. -/
  | unscoped (symbol : String)
  /-- The fragments do not go together. -/
  | store (e : ComposeError)
  /-- A trial composition fails. -/
  | trial (t : Trial) (e : ComposeError) (file : Option Path)
deriving DecidableEq

/-- The wording of a finding. -/
def Finding.diagnostic : Finding → Diagnostic
  | fragmentName name =>
    { severity := .error
      message := "invalid fragment name `" ++ name ++ "`"
      suggestions := ["Use letters, digits, `_`, `-` and `.` only"] }
  | flagName flag place =>
    { severity := .error
      message := "invalid flag `" ++ flag ++ "` in " ++ place.text }
  | emptyFragment name nested =>
    { severity := .warning
      message := "fragment `" ++ name ++ "` declares nothing"
      context :=
        [if nested then "it is a nested fragment with no items"
         else "it has no items and no nested fragments"] }
  | rewriteSymbol symbol =>
    { severity := .error
      message := "invalid rewrite symbol `" ++ symbol ++ "`"
      context := ["expected a macro name, optionally with a parameter list"]
      suggestions := ["e.g. `UINT16_MAX` or `ATOMIC_VAR_INIT(x)`"] }
  | unscoped symbol =>
    { severity := .warning
      message := "rewrite of `" ++ symbol ++ "` is not scoped to any fragment and never applies" }
  | store e => e.diagnostic
  | trial t e file =>
    { e.diagnostic.withContext t.text with location := file.map Path.text }

/-- Whether a finding is an error. -/
def Finding.isError (f : Finding) : Bool :=
  f.diagnostic.isError

/-! ## Names -/

/-- The flags among some names that are not well formed. -/
def flagFindings (flags : List String) (place : FlagPlace) : List Finding :=
  (flags.filter fun flag => !isFlagName flag).map fun flag => .flagName flag place

/-- What is found in a fragment itself. -/
def Fragment.findings (f : Fragment) (nested : Bool) : List Finding :=
  (if isFragmentName f.name then [] else [.fragmentName f.name])
    ++ flagFindings f.gate.flagNames.keys (.fragmentGate f.name)
    ++ (if f.items.isEmpty && f.children.isEmpty then [.emptyFragment f.name nested] else [])

/-- What is found in a rule. -/
def RewriteRule.findings (r : RewriteRule) : List Finding :=
  (if isMacroHead r.symbol then [] else [.rewriteSymbol r.symbol])
    ++ (if r.fragments.isEmpty then [.unscoped r.symbol] else [])
    ++ flagFindings r.gate.flagNames.keys (.rewriteGate r.symbol)

/-- What is found in a configuration. -/
def Configuration.findings (c : Configuration) : List Finding :=
  flagFindings c.flags (.configuration c.name)

namespace Library

/-- What is found in a library without composing it. -/
def nameFindings (l : Library) : List Finding :=
  (l.fragments.flatMap fun f =>
      f.findings false ++ (Fragment.allOf f.children).flatMap fun g => g.findings true)
    ++ l.rewrites.flatMap RewriteRule.findings
    ++ l.configurations.values.flatMap Configuration.findings

/-- What a trial finds. -/
def trialFindings (l : Library) (store : FragmentStore) (t : Trial) : List Finding :=
  match l.outcome store t with
  | .ok _ => []
  | .error e => [.trial t e l.sources.head?]

/-- All that is found in a library. -/
def findings (l : Library) : List Finding :=
  l.nameFindings ++ match l.store with
    | .ok store => l.trials.flatMap (l.trialFindings store)
    | .error e => [.store e]

/-- The number of trial compositions that are run. -/
def trialCount (l : Library) : Nat :=
  match l.store with
  | .ok _ => l.trials.length
  | .error _ => 0

end Library

end DeclSurface
