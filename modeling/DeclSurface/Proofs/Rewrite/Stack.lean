import DeclSurface.Composition.Basic
import DeclSurface.Proofs.Outcome
import Mathlib.Data.List.Basic

/-!
# The stack of active rewrites

What each step of the engine does to the rewrites in effect, apart from the values that they
found. Beginning a rule pushes one, ending pops the innermost, and nothing else moves.

* `Engine.stack`          — the rewrites in effect, innermost first.
* `apply_eq_ok_iff`       — when a rule can begin.
* `applyAll_invariant`, `endMany_invariant` — what every step keeps, a scope keeps.
* `Engine.Keeps`          — what the engine keeps whatever it is told to do.
* `stack_of_applyAll`, `stack_endMany` — what a scope pushes and pops.
-/

namespace DeclSurface

/-- What a rewrite does, apart from the value it finds. -/
structure Substitution where
  /-- The fragment whose scope applied it. -/
  fragment : String
  symbol : String
  value : String
  restore : RestoreAction
deriving DecidableEq

/-- The macro a substitution is about. -/
def Substitution.name (s : Substitution) : String :=
  macroName s.symbol

/-- What a rule does while it is active for a fragment. -/
def RewriteRule.substitution (r : RewriteRule) (fragment : String) : Substitution :=
  { fragment, symbol := r.symbol, value := r.value, restore := r.restore }

/-- What an active rewrite does. -/
def ActiveRewrite.substitution (a : ActiveRewrite) : Substitution :=
  { fragment := a.fragment, symbol := a.symbol, value := a.value, restore := a.restore }

namespace Engine

variable {e e' : Engine} {fragment : String} {rule : RewriteRule} {rules : List RewriteRule}

/-- The rewrites in effect, innermost first. -/
def stack (e : Engine) : List Substitution :=
  e.active.map (·.substitution)

theorem length_stack (e : Engine) : e.stack.length = e.active.length :=
  List.length_map _

/-! ## Beginning -/

theorem apply_eq_ok_iff :
    e.apply rule fragment = .ok e' ↔
      (∀ a, e.outermost? (macroName rule.symbol) = some a →
        a.value = rule.value ∧ a.symbol = rule.symbol) ∧ e.begin rule fragment = e' := by
  unfold apply
  cases e.outermost? (macroName rule.symbol) with
  | none => simp
  | some a =>
    by_cases hSame : a.value = rule.value ∧ a.symbol = rule.symbol
    · simp [hSame]
    · simp [hSame]

/-- What holds of an engine and is kept by each rule holds after all rules have begun. -/
theorem applyAll_invariant {P : Engine → Prop}
    (hStep : ∀ r ∈ rules, ∀ e e' : Engine, P e → e.apply r fragment = .ok e' → P e')
    (h : P e) (hApply : e.applyAll fragment rules = .ok e') : P e' := by
  induction rules generalizing e with
  | nil =>
    obtain rfl := Except.ok.inj hApply
    exact h
  | cons r rs ih =>
    rw [applyAll, bind_eq_ok_iff] at hApply
    obtain ⟨e₁, hFirst, hRest⟩ := hApply
    rw [List.forall_mem_cons] at hStep
    exact ih hStep.2 (hStep.1 e e₁ h hFirst) hRest

theorem stack_begin : (e.begin rule fragment).stack = rule.substitution fragment :: e.stack :=
  rfl

theorem stack_of_applyAll (h : e.applyAll fragment rules = .ok e') :
    e'.stack = (rules.map (·.substitution fragment)).reverse ++ e.stack := by
  induction rules generalizing e with
  | nil =>
    obtain rfl := Except.ok.inj h
    rfl
  | cons r rs ih =>
    rw [applyAll, bind_eq_ok_iff] at h
    obtain ⟨e₁, hApply, hRest⟩ := h
    obtain ⟨-, rfl⟩ := apply_eq_ok_iff.mp hApply
    rw [ih hRest, stack_begin, List.map_cons, List.reverse_cons, List.append_assoc]
    rfl

/-! ## Ending -/

theorem active_endLast (e : Engine) : e.endLast.active = e.active.tail := by
  unfold endLast
  split
  · rename_i hNil
    rw [hNil, List.tail_nil]
  · rename_i hCons
    rw [hCons, List.tail_cons]

/-- What holds of an engine and is kept whenever a rewrite ends holds after several have. -/
theorem endMany_invariant {P : Engine → Prop} {n : Nat} (hStep : ∀ e : Engine, P e → P e.endLast)
    (h : P e) : P (endMany n e) := by
  induction n generalizing e with
  | zero => exact h
  | succ n ih => exact ih (hStep e h)

/-- The engine keeps `P` whatever it is told to do. -/
structure Keeps (P : Engine → Prop) : Prop where
  setPosition : ∀ (e : Engine) (n : Nat), P e → P (e.setPosition n)
  apply : ∀ (e e' : Engine) (rule : RewriteRule) (fragment : String),
    P e → e.apply rule fragment = .ok e' → P e'
  endLast : ∀ e : Engine, P e → P e.endLast

theorem Keeps.applyAll {P : Engine → Prop} (hKeeps : Keeps P) (h : P e)
    (hApply : e.applyAll fragment rules = .ok e') : P e' :=
  applyAll_invariant (fun r _ e₁ e₂ => hKeeps.apply e₁ e₂ r fragment) h hApply

theorem Keeps.endMany {P : Engine → Prop} {n : Nat} (hKeeps : Keeps P) (h : P e) :
    P (endMany n e) :=
  endMany_invariant hKeeps.endLast h

theorem active_endMany {n : Nat} (e : Engine) : (endMany n e).active = e.active.drop n := by
  induction n generalizing e with
  | zero => rfl
  | succ n ih => rw [endMany, ih, active_endLast, List.drop_tail]

theorem stack_endMany {n : Nat} (e : Engine) : (endMany n e).stack = e.stack.drop n := by
  rw [stack, active_endMany, stack, List.map_drop]

end Engine

end DeclSurface
