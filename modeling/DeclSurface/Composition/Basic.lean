import DeclSurface.Composition.Precedence
import DeclSurface.Composition.Validity
import DeclSurface.FlagSet
import DeclSurface.Manifest.Basic
import DeclSurface.Rewrite.Engine

/-!
# Composition

From fragments and flags to a manifest: check the plan, leave out what is not allowed or whose
gate is closed, order the rest, and place one fragment after the other. Placing a fragment
opens a rewrite scope, applies the rules scoped to it, collects its items, places the open
ones among its nested fragments and closes the scope again. The first defect ends it all.

* `Collected.add`  — collects an item, which must be new or harmless to repeat.
* `Plan.place`     — places a fragment with what is nested in it.
* `Plan.compose`   — the manifest, or why there is none.
-/

namespace DeclSurface

/-! ## Collecting items -/

/-- The fragments and items collected so far. -/
structure Collected where
  fragments : List String := []
  items : List ManifestItem := []
deriving DecidableEq, Inhabited

namespace Collected

/-- The item that was collected with a given identity. -/
def find? (c : Collected) (identity : String) : Option ManifestItem :=
  c.items.find? (·.item.identity == identity)

/-- Collects an item for a fragment; a repetition that both occurrences allow is dropped. -/
def add (c : Collected) (fragment : String) (item : Item) : Except ComposeError Collected :=
  match c.find? item.identity with
  | none => .ok { c with items := c.items ++ [⟨fragment, item⟩] }
  | some first =>
    if first.item.idempotent && item.idempotent then .ok c
    else .error (.duplicateDeclaration item.identity first.fragment fragment)

/-- Collects items for a fragment, in order. -/
def addAll (c : Collected) (fragment : String) : List Item → Except ComposeError Collected
  | [] => .ok c
  | i :: is => do
    let c ← c.add fragment i
    c.addAll fragment is

/-- Enters a fragment among those collected. -/
def enter (c : Collected) (fragment : String) : Collected :=
  { c with fragments := c.fragments ++ [fragment] }

end Collected

/-- Applies rules for a fragment, in order. -/
def Engine.applyAll (e : Engine) (fragment : String) :
    List RewriteRule → Except ComposeError Engine
  | [] => .ok e
  | r :: rs => do
    let e ← e.apply r fragment
    e.applyAll fragment rs

/-- What placing fragments works on. -/
structure Progress where
  engine : Engine
  collected : Collected := {}
deriving DecidableEq, Inhabited

/-- The progress, with new events placed after the items collected so far. -/
def Progress.stamp (p : Progress) : Progress :=
  { p with engine := p.engine.setPosition p.collected.items.length }

namespace Plan

/-- The flags of the caller and those that the configuration forces on. -/
def effectiveFlags (plan : Plan) (flags : FlagSet) : FlagSet :=
  match plan.configuration with
  | none => flags
  | some c => c.flags.foldl FlagSet.enable flags

/-- The rules scoped to a fragment whose gates are open. -/
def rulesFor (plan : Plan) (flags : FlagSet) (fragment : String) : List RewriteRule :=
  plan.rules.filter fun r => r.appliesTo fragment && r.gate.holds flags

/-- Whether the configuration, if any, allows a top-level fragment. -/
def allows (plan : Plan) (fragment : String) : Bool :=
  match plan.configuration with
  | none => true
  | some c => c.allows fragment

/-- The top-level fragments that are allowed and whose gates are open. -/
def included (plan : Plan) (store : FragmentStore) (flags : FlagSet) : List Fragment :=
  store.fragments.filter fun f => plan.allows f.name && f.gate.holds flags

/-! ## Order -/

/-- Adds the edges that the constraints of a fragment ask for. -/
def addConstraints (name : String) (g : Precedence) (cs : List Constraint) : Precedence :=
  cs.foldl (fun g c => match c with
    | .mustPrecede other => g.addEdge name other
    | .mustFollow other => g.addEdge other name) g

/-- The precedence among fragments; constraints on fragments left out order nothing. -/
def precedence (fs : List Fragment) : Precedence :=
  fs.foldl (fun g f => addConstraints f.name g f.constraints) { names := fs.map (·.name) }

/-- The fragments in a stable order. -/
def ordered (fs : List Fragment) : Except ComposeError (List Fragment) := do
  let order ← (precedence fs).stableOrder
  .ok (order.filterMap fun i => fs[i]?)

/-! ## Placement -/

mutual
/-- Places a fragment and the open ones nested in it, inside a rewrite scope of its own. -/
def place (plan : Plan) (flags : FlagSet) : Fragment → Progress → Except ComposeError Progress
  | ⟨name, _, items, _, children⟩, p => do
    let mark := p.engine.active.length
    let engine ← p.stamp.engine.applyAll name (plan.rulesFor flags name)
    let collected ← (p.collected.enter name).addAll name items
    let q ← placeOpen plan flags children { engine, collected }
    .ok { q with engine := q.stamp.engine.closeTo mark }

/-- Places those among nested fragments whose gates are open, in order. -/
def placeOpen (plan : Plan) (flags : FlagSet) :
    List Fragment → Progress → Except ComposeError Progress
  | [], p => .ok p
  | f :: fs, p =>
    if f.gate.holds flags then do
      let q ← place plan flags f p
      placeOpen plan flags fs q
    else placeOpen plan flags fs p
end

/--
Places top-level fragments in order. `stop k` says whether a request to stop is seen just
before the fragment numbered `k`.
-/
def placeAll (plan : Plan) (flags : FlagSet) (stop : Nat → Bool) (k : Nat) :
    List Fragment → Progress → Except ComposeError Progress
  | [], p => .ok p
  | f :: fs, p =>
    if stop k then .error (.cancelled p.collected.fragments.length)
    else do
      let q ← plan.place flags f p
      placeAll plan flags stop (k + 1) fs q

/-! ## The manifest -/

/-- The manifest of what has been placed under the effective flags. -/
def manifest (plan : Plan) (flags : FlagSet) (p : Progress) : Manifest :=
  { version := Manifest.currentVersion
    configuration := plan.configuration.map (·.name)
    flags := flags.names
    fragments := p.collected.fragments
    items := p.collected.items
    rewrites := p.engine.log }

/-- The manifest of a store under a flag set, where `stop` says when to give up. -/
def composeUntil (plan : Plan) (store : FragmentStore) (flags : FlagSet) (stop : Nat → Bool) :
    Except ComposeError Manifest := do
  let flags := plan.effectiveFlags flags
  plan.validate store
  let fragments ← ordered (plan.included store flags)
  let p ← plan.placeAll flags stop 0 fragments { engine := .ofBaseline flags.baseline }
  .ok (plan.manifest flags p)

/-- The manifest of a store under a flag set. -/
def compose (plan : Plan) (store : FragmentStore) (flags : FlagSet) :
    Except ComposeError Manifest :=
  plan.composeUntil store flags fun _ => false

end Plan

end DeclSurface
