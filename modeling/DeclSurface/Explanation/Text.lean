import DeclSurface.Explanation.Basic

/-!
# Explanations as text

* `Explanation.format`  — an explanation, a line for each fact.
-/

namespace DeclSurface

/-- A section of a text: a heading and lines below it, or nothing without lines. -/
def headed (heading : String) (lines : List String) : String :=
  if lines.isEmpty then ""
  else "  " ++ heading ++ ":\n" ++ String.join (lines.map fun line => "    " ++ line ++ "\n")

namespace Explanation

/-- A rule, with its gate on a line of its own if it has one. -/
def ruleText (e : Explanation) (r : ExplainedRule) : String :=
  r.rule.symbol ++ " -> " ++ r.rule.value
    ++ (if r.scope = e.fragment then "" else " (from `" ++ r.scope ++ "`)")
    ++ (if r.active then "" else " (inactive)")
    ++ (if r.rule.gate.text = "true" then "" else "\n      when " ++ r.rule.gate.text)

/-- Whether the fragment is part of the surface, and where. -/
def verdict (e : Explanation) : String :=
  match e.placement with
  | .error e => "Composition failed: " ++ e.message
  | .ok { position := some i, total } =>
    "Included at position " ++ toString (i + 1) ++ " of " ++ toString total
  | .ok { position := none, total := _ } => "Not included"

/-- What the configuration says about the fragment. -/
def allowedText (e : Explanation) : String :=
  match e.allowed with
  | some true => "  Configuration: allowed\n"
  | some false => "  Configuration: excluded\n"
  | none => ""

/-- The text of an explanation. -/
def format (e : Explanation) : String :=
  "Fragment: " ++ e.fragment ++ "\n"
    ++ (match e.parent with
        | some p => "  Nested in: " ++ p ++ "\n"
        | none => "")
    ++ "  Gate: " ++ e.gate.text ++ (if e.gatePasses then " (true)\n" else " (false)\n")
    ++ String.join (e.flags.map fun (n, on) =>
        "    " ++ n ++ (if on then " = set\n" else " = unset\n"))
    ++ e.allowedText
    ++ headed "Constraints" (e.constraints.map Constraint.display)
    ++ headed "Rewrites" (e.rules.map e.ruleText)
    ++ headed "Items" (e.items.map Item.display)
    ++ "\n" ++ e.verdict ++ "\n"

end Explanation

end DeclSurface
