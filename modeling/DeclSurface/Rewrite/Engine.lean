import DeclSurface.Composition.Error
import DeclSurface.Rewrite.Event

/-!
# The rewrite engine

The engine holds the macros that are defined, the rewrites that are active and the log of
what has happened. A scope is a number of active rewrites: closing it ends, innermost first,
every rewrite applied since.

* `Engine.apply`    — begins a rewrite, or reports the active one that it contradicts.
* `Engine.endLast`  — ends the innermost rewrite.
* `Engine.closeTo`  — ends rewrites until a given number is left.
-/

namespace DeclSurface

/-- A rewrite in effect. -/
structure ActiveRewrite where
  /-- The symbol as its rule spells it. -/
  symbol : String
  value : String
  /-- The fragment whose scope applied it. -/
  fragment : String
  restore : RestoreAction
  /-- The value the macro had before. -/
  previous : Option String
deriving DecidableEq, Repr, Inhabited

/-- The macro an active rewrite is about. -/
def ActiveRewrite.name (a : ActiveRewrite) : String :=
  macroName a.symbol

/-- Macros, active rewrites and log of one composition. -/
structure Engine where
  /-- The value of each defined macro. -/
  symbols : NameMap String := ∅
  /-- The rewrites in effect, innermost first. -/
  active : List ActiveRewrite := []
  /-- The events so far, oldest first. -/
  log : List RewriteEvent := []
  /-- The position given to new events. -/
  position : Nat := 0
deriving DecidableEq, Inhabited

namespace Engine

/-- An engine without active rewrites, over the given macros. -/
def ofBaseline (symbols : NameMap String) : Engine :=
  { symbols }

/-- The engine with another position for new events. -/
def setPosition (e : Engine) (position : Nat) : Engine :=
  { e with position }

/-- The value of the macro that a symbol defines. -/
def valueOf (e : Engine) (symbol : String) : Option String :=
  e.symbols.get? (macroName symbol)

/-- The outermost active rewrite of a macro. -/
def outermost? (e : Engine) (name : String) : Option ActiveRewrite :=
  e.active.reverse.find? (·.name == name)

/-- The engine after a rule has begun for a fragment, whatever is active. -/
def begin (e : Engine) (rule : RewriteRule) (fragment : String) : Engine :=
  { e with
    symbols := e.symbols.insert (macroName rule.symbol) rule.value
    active :=
      { symbol := rule.symbol, value := rule.value, fragment, restore := rule.restore
        previous := e.valueOf rule.symbol } :: e.active
    log := e.log ++
      [{ action := .apply, symbol := rule.symbol, value := some rule.value, fragment
         position := e.position }] }

/--
Begins a rule for a fragment. The outermost active rewrite of the same macro must have the
rule's value and spelling; all others of that macro then have them too.
-/
def apply (e : Engine) (rule : RewriteRule) (fragment : String) : Except ComposeError Engine :=
  match e.outermost? (macroName rule.symbol) with
  | some a =>
    if a.value = rule.value ∧ a.symbol = rule.symbol then .ok (e.begin rule fragment)
    else .error (.rewriteConflict (macroName rule.symbol) a.value a.fragment rule.value fragment)
  | none => .ok (e.begin rule fragment)

/--
The event that ends the rewrite `a` over the rewrites `outer`. While an outer rewrite of the
macro is active the macro keeps its value and spelling. Otherwise it gets back its value
under its plain name, because that value does not belong to the rule's parameter list, or it
is left undefined.
-/
def endEvent (a : ActiveRewrite) (outer : List ActiveRewrite) (position : Nat) : RewriteEvent :=
  let covered := outer.any (·.name == a.name)
  let value := if a.restore = .undefine ∧ ¬ covered then none else a.previous
  { action := .restore
    symbol := if value.isSome && !covered then a.name else a.symbol
    value
    fragment := a.fragment
    position }

/-- Ends the innermost rewrite. -/
def endLast (e : Engine) : Engine :=
  match e.active with
  | [] => e
  | a :: outer =>
    let event := endEvent a outer e.position
    { e with
      symbols := match event.value with
        | some value => e.symbols.insert a.name value
        | none => e.symbols.erase a.name
      active := outer
      log := e.log ++ [event] }

/-- Ends a number of rewrites, innermost first. -/
def endMany : Nat → Engine → Engine
  | 0, e => e
  | n + 1, e => endMany n e.endLast

/-- Ends rewrites until `mark` of them are left. -/
def closeTo (e : Engine) (mark : Nat) : Engine :=
  endMany (e.active.length - mark) e

end Engine

end DeclSurface
